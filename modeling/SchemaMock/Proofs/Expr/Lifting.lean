import Mathlib.Order.MinMax
import SchemaMock.Proofs.Expr.Newlines

/-! # Out of the braces

An expression that a text holds by itself may stand deep inside braces, and what closes them stands
behind it then. Where it is read there it is read outside of them too, less deep and up to the end
of the text.
-/

namespace SchemaMock

/-- Only closing braces stand before the end. -/
inductive Closers : List Token → Prop where
  | last {t : Token} : t.kind = .eof → Closers [t]
  | cons {t : Token} {ts : List Token} : t.kind = .closeBrace → Closers ts → Closers (t :: ts)

/-- The second list shows the tokens of the first, and closing braces before the end. -/
inductive Enclosed : List Token → List Token → Prop where
  | last {t : Token} {us : List Token} : t.kind = .eof → Closers us → Enclosed [t] us
  | cons {t u : Token} {ts us : List Token} : t.kind ≠ .eof → t.face = u.face → Enclosed ts us →
      Enclosed (t :: ts) (u :: us)

/-- The kinds of token behind the expression. -/
def TokenKind.IsEnd (k : TokenKind) : Prop := k = .closeBrace ∨ k = .eof

instance (k : TokenKind) : Decidable k.IsEnd := inferInstanceAs (Decidable (_ ∨ _))

def Inside : TokensRel := fun ts us => Enclosed ts us ∧ Heads (· ≠ .eof) ts

def AtEnd : TokensRel := fun ts us => Enclosed ts us ∧ Heads (· = .eof) ts

theorem Closers.exists_cons {us : List Token} (h : Closers us) : ∃ u vs, us = u :: vs ∧
    u.kind.IsEnd := by
  cases h with
  | last h => exact ⟨_, [], rfl, .inr h⟩
  | cons h => exact ⟨_, _, rfl, .inl h⟩

namespace Enclosed

variable {t u : Token} {ts us : List Token}

theorem ne_nil (h : Enclosed ts us) : ts ≠ [] := by
  cases h <;> exact List.cons_ne_nil _ _

theorem ne_nil_right (h : Enclosed ts us) : us ≠ [] := by
  cases h with
  | last _ h =>
    obtain ⟨u, vs, rfl, -⟩ := h.exists_cons
    exact List.cons_ne_nil u vs
  | cons => exact List.cons_ne_nil _ _

theorem length_le (h : Enclosed ts us) : ts.length ≤ us.length := by
  induction h with
  | last _ h =>
    obtain ⟨u, vs, rfl, -⟩ := h.exists_cons
    simp
  | cons _ _ _ ih => exact Nat.succ_le_succ ih

/-- The first tokens show the same, or the first list has come to its end. -/
theorem head (h : Enclosed (t :: ts) (u :: us)) :
    t.kind ≠ .eof ∧ t.face = u.face ∧ Enclosed ts us ∨ t.kind = .eof ∧ u.kind.IsEnd := by
  cases h with
  | last ht hu =>
    obtain ⟨v, vs, hv, hend⟩ := hu.exists_cons
    cases hv
    exact .inr ⟨ht, hend⟩
  | cons ht hface h => exact .inl ⟨ht, hface, h⟩

end Enclosed

theorem Inside.head {c c' : Cursor} (h : Inside c.tokens c'.tokens) :
    c.current.face = c'.current.face ∧ Enclosed c.next.tokens c'.next.tokens := by
  obtain ⟨h, hhead⟩ := h
  obtain ⟨-, hface, h⟩ | ⟨heof, -⟩ := h.head
  · exact ⟨hface, by rwa [Cursor.tokens_next rfl h.ne_nil, Cursor.tokens_next rfl h.ne_nil_right]⟩
  · exact absurd heof hhead

theorem Enclosed.inside_or_atEnd {c c' : Cursor} (h : Enclosed c.tokens c'.tokens) :
    Inside c.tokens c'.tokens ∨ AtEnd c.tokens c'.tokens ∧ c'.current.kind.IsEnd := by
  obtain ⟨hne, -⟩ | ⟨heof, hend⟩ := h.head
  · exact .inl ⟨h, hne⟩
  · exact .inr ⟨⟨h, heof⟩, hend⟩

/-- No token of another kind is at hand where only one of the lists has come to its end. -/
theorem Enclosed.kind_beq {c c' : Cursor} {k : TokenKind} (h : Enclosed c.tokens c'.tokens)
    (hk : ¬ k.IsEnd) : (c.current.kind == k) = (c'.current.kind == k) := by
  obtain hc | ⟨hc, hu⟩ := h.inside_or_atEnd
  · rw [Token.kind_eq_of_face hc.head.1]
  · have hno : ¬ c.current.kind = k := fun h => hk (.inr (h.symm.trans hc.2))
    have hno' : ¬ c'.current.kind = k := fun h => hk (h ▸ hu)
    rw [beq_false_of_ne hno, beq_false_of_ne hno']

theorem Enclosed.kind_iff {c c' : Cursor} {k : TokenKind} (h : Enclosed c.tokens c'.tokens)
    (hk : ¬ k.IsEnd) : c.current.kind = k ↔ c'.current.kind = k := by
  rw [← beq_iff_eq, ← beq_iff_eq (a := c'.current.kind), h.kind_beq hk]

/-- Past tokens of a class that holds no end. -/
theorem Enclosed.dropFirst {p : TokenKind → Bool} (hp : ∀ k, p k = true → ¬ k.IsEnd)
    {ts us : List Token} (h : Enclosed ts us) : Enclosed (dropFirst p ts) (dropFirst p us) := by
  induction h with
  | @last t us ht hus =>
    obtain ⟨u, vs, rfl, hu⟩ := hus.exists_cons
    have hstay : SchemaMock.dropFirst p (u :: vs) = u :: vs := by
      cases vs with
      | nil => rfl
      | cons v vs => rw [SchemaMock.dropFirst, if_neg fun hpu => hp _ hpu hu]
    rw [hstay]
    exact .last ht hus
  | @cons t u ts us ht hface h ih =>
    obtain ⟨v, vs, rfl⟩ := List.exists_cons_of_ne_nil h.ne_nil
    obtain ⟨w, ws, rfl⟩ := List.exists_cons_of_ne_nil h.ne_nil_right
    rw [SchemaMock.dropFirst, SchemaMock.dropFirst, ← Token.kind_eq_of_face hface]
    split
    · exact ih
    · exact .cons ht hface h

theorem Enclosed.skip {p : TokenKind → Bool} (hp : ∀ k, p k = true → ¬ k.IsEnd) {c c' : Cursor}
    (h : Enclosed c.tokens c'.tokens) : Enclosed (c.skip p).tokens (c'.skip p).tokens := by
  rw [Cursor.tokens_skip, Cursor.tokens_skip]
  exact h.dropFirst hp

theorem not_isEnd_of_newline {k : TokenKind} (h : (k == .newline) = true) : ¬ k.IsEnd := by
  rw [beq_iff_eq.mp h]
  decide

namespace Reader

variable {α β : Type}

/-- Three runs, of which the second comes to the tokens of the first, and to no greater depth than
the third. What the first gives the second and the third give too, or the third meets a limit. -/
def Lifts (P : TokensRel) (r₀ r r' : Reader α) : Prop :=
  ∀ ⦃c₀ c c' a d₀⦄, c.tokens = c₀.tokens → P c.tokens c'.tokens → c.deepest ≤ c'.deepest →
    r₀ c₀ = .ok (a, d₀) →
    (∃ d d', r c = .ok (a, d) ∧ r' c' = .ok (a, d') ∧ d.tokens = d₀.tokens ∧
      Enclosed d.tokens d'.tokens ∧ d.deepest ≤ d'.deepest) ∨ Limited (r' c')

namespace Lifts

variable {P : TokensRel} {r₀ r r' : Reader α} {f₀ f f' : α → Reader β}

theorem pre {P' : TokensRel} (h : Lifts P r₀ r r') (hP : ∀ ts us, P' ts us → P ts us) :
    Lifts P' r₀ r r' :=
  fun _ _ _ _ _ hsame hc hdeep hrun => h hsame (hP _ _ hc) hdeep hrun

theorem inside (h : Lifts Enclosed r₀ r r') : Lifts Inside r₀ r r' := h.pre fun _ _ => And.left

theorem atEnd (h : Lifts Enclosed r₀ r r') : Lifts AtEnd r₀ r r' := h.pre fun _ _ => And.left

theorem never (h : ∀ c x, r₀ c ≠ .ok x) : Lifts P r₀ r r' :=
  fun _ _ _ _ _ _ _ _ hr => absurd hr (h _ _)

theorem unexpected {what : Expectation} : Lifts P (Reader.unexpected what) r r' :=
  never fun _ _ => nofun

theorem pure {a : α} : Lifts Enclosed (Pure.pure a) (Pure.pure a) (Pure.pure a) := by
  intro c₀ c c' b d₀ hsame hc hdeep hr
  cases hr
  exact .inl ⟨c, c', rfl, rfl, hsame, hc, hdeep⟩

theorem bind (h : Lifts P r₀ r r') (hf : ∀ a, Lifts Enclosed (f₀ a) (f a) (f' a)) :
    Lifts P (r₀ >>= f₀) (r >>= f) (r' >>= f') := by
  intro c₀ c c' b e₀ hsame hc hdeep hrun
  obtain ⟨a, d₀, hr₀, hfa⟩ := bind_eq_ok hrun
  obtain ⟨d, d', hr, hr', hsame, hd, hdeep⟩ | ⟨span, n, hlimit⟩ := h hsame hc hdeep hr₀
  · rw [bind_of_ok f hr, bind_of_ok f' hr']
    exact hf a hsame hd hdeep hfa
  · exact .inr ⟨span, n, bind_of_error f' hlimit⟩

/-! ## Depth -/

theorem reach {h₀ h h' : Unit → Reader α} {depth₀ depth depth' : Nat} (hle : depth ≤ depth')
    (hread : Lifts P (h₀ ()) (h ()) (h' ())) :
    Lifts P (Reader.reach depth₀ >>= h₀) (Reader.reach depth >>= h)
      (Reader.reach depth' >>= h') := by
  intro c₀ c c' a d₀ hsame hc hdeep hrun
  obtain ⟨u, s₀, hs₀, hrun⟩ := bind_eq_ok hrun
  obtain ⟨-, rfl⟩ := reach_eq_ok hs₀
  by_cases hlimit : maxDepth < depth'
  · exact .inr ⟨c'.current.span, maxDepth, bind_of_error h' (if_pos hlimit)⟩
  · rw [bind_of_ok h' (if_neg hlimit), bind_of_ok h (if_neg fun hlt => hlimit (Nat.lt_of_lt_of_le hlt hle))]
    exact hread (by exact hsame) (by exact hc) (max_le_max hdeep hle) hrun

theorem wrap {h₀ h h' : Unit → Reader α} (hread : Lifts P (h₀ ()) (h ()) (h' ())) :
    Lifts P (Reader.wrap >>= h₀) (Reader.wrap >>= h) (Reader.wrap >>= h') :=
  fun _ _ _ _ _ hsame hc hdeep hrun =>
  reach (Nat.succ_le_succ hdeep) hread hsame hc hdeep hrun

theorem subtree {depth₀ depth depth' : Nat} (h : depth ≤ depth') (hr : Lifts P r₀ r r') :
    Lifts P (Reader.subtree depth₀ r₀) (Reader.subtree depth r) (Reader.subtree depth' r') := by
  intro c₀ c c' a d₀ hsame hc hdeep hrun
  obtain ⟨s₀, hs₀, rfl⟩ := subtree_eq_ok hrun
  have hc : P { c with deepest := depth }.tokens { c' with deepest := depth' }.tokens := hc
  obtain ⟨s, s', hs, hs', hsame, hd, hdeep'⟩ | ⟨span, n, hlimit⟩ := hr (by exact hsame) hc h hs₀
  · exact .inl ⟨_, _, subtree_of_ok hs, subtree_of_ok hs', hsame, hd, max_le_max hdeep' hdeep⟩
  · exact .inr ⟨span, n, subtree_of_error hlimit⟩

/-! ## Repetition -/

theorem loop {turn₀ turn turn' : α → Reader (Turn α β)}
    (h : ∀ a, Lifts Enclosed (turn₀ a) (turn a) (turn' a)) (a : α) :
    Lifts Enclosed (Reader.loop turn₀ a) (Reader.loop turn a) (Reader.loop turn' a) := by
  suffices hgo : ∀ n n' a, n ≤ n' → Lifts Enclosed (loop.go turn₀ n a) (loop.go turn n a)
      (loop.go turn' n' a) by
    intro c₀ c c' b d₀ hsame hc hdeep hrun
    have hlength : c₀.later.length = c.later.length := by rw [(List.cons.inj hsame).2]
    replace hrun : loop.go turn₀ (c₀.later.length + 1) a c₀ = .ok (b, d₀) := hrun
    rw [hlength] at hrun
    exact hgo c.tokens.length c'.tokens.length a hc.length_le hsame hc hdeep hrun
  intro n
  induction n with
  | zero => exact fun n' a _ => never fun _ _ => nofun
  | succ n ih =>
    intro n' a hle
    obtain ⟨m, rfl⟩ := Nat.exists_eq_add_of_lt (Nat.lt_of_lt_of_le n.lt_succ_self hle)
    refine bind (h a) fun t => ?_
    cases t with
    | again a => exact ih _ a (Nat.le_add_right n m)
    | done b => exact pure

/-! ## Tokens -/

variable {k : TokenKind} {g₀ g g' : Token → Reader α}

/-- A reader that fails at the end of the text does not come to it. -/
theorem refused (h : Refuses (· = .eof) r₀) : Lifts AtEnd r₀ r r' := by
  intro c₀ c c' a d₀ hsame hc _ hrun
  have hcurrent : c.current = c₀.current := (List.cons.inj hsame).1
  exact absurd hrun (h _ _ (hcurrent ▸ hc.2))

theorem of_refuses (h : Refuses (· = .eof) r₀) (hr : Lifts Inside r₀ r r') :
    Lifts Enclosed r₀ r r' := by
  intro c₀ c c' a d₀ hsame hc hdeep hrun
  obtain hc | ⟨hc, -⟩ := hc.inside_or_atEnd
  · exact hr hsame hc hdeep hrun
  · exact refused h hsame hc hdeep hrun

theorem current_inside (h : ∀ t u, t.face = u.face → Lifts Inside (g₀ t) (g t) (g' u)) :
    Lifts Inside (Reader.current >>= g₀) (Reader.current >>= g) (Reader.current >>= g') := by
  intro c₀ c c' a d₀ hsame hc hdeep hrun
  have hcurrent : c.current = c₀.current := (List.cons.inj hsame).1
  rw [current_bind, ← hcurrent] at hrun
  exact h _ _ hc.head.1 hsame hc hdeep hrun

theorem current (h : ∀ t u, t.face = u.face → Lifts Inside (g₀ t) (g t) (g' u))
    (hend : ∀ t u, t.kind = .eof → u.kind.IsEnd → Lifts AtEnd (g₀ t) (g t) (g' u)) :
    Lifts Enclosed (Reader.current >>= g₀) (Reader.current >>= g) (Reader.current >>= g') := by
  intro c₀ c c' a d₀ hsame hc hdeep hrun
  obtain hc | ⟨hc, hu⟩ := hc.inside_or_atEnd
  · exact current_inside h hsame hc hdeep hrun
  · have hcurrent : c.current = c₀.current := (List.cons.inj hsame).1
    rw [current_bind, ← hcurrent] at hrun
    exact hend _ _ hc.2 hu hsame hc hdeep hrun

theorem tokens_next_eq {c₀ c : Cursor} (h : c.tokens = c₀.tokens) :
    c.next.tokens = c₀.next.tokens := by
  obtain ⟨t, ts, n⟩ := c
  obtain ⟨t₀, ts₀, n₀⟩ := c₀
  cases h
  cases ts <;> rfl

theorem advance (h : ∀ t u, t.face = u.face → Lifts Enclosed (g₀ t) (g t) (g' u)) :
    Lifts Inside (Reader.advance >>= g₀) (Reader.advance >>= g) (Reader.advance >>= g') := by
  intro c₀ c c' a d₀ hsame hc hdeep hrun
  have hcurrent : c.current = c₀.current := (List.cons.inj hsame).1
  rw [advance_bind, ← hcurrent] at hrun
  have hdeep : c.next.deepest ≤ c'.next.deepest := by rwa [deepest_next, deepest_next]
  exact h _ _ hc.head.1 (tokens_next_eq hsame) hc.head.2 hdeep hrun

theorem check (hk : ¬ k.IsEnd) : Lifts Enclosed (Reader.check k) (Reader.check k)
    (Reader.check k) := by
  intro c₀ c c' yes d₀ hsame hc hdeep hrun
  cases hrun
  have hcurrent : c.current = c₀.current := (List.cons.inj hsame).1
  refine .inl ⟨c, c', ?_, ?_, hsame, hc, hdeep⟩
  · rw [← hcurrent]
    rfl
  · rw [← hcurrent, hc.kind_beq hk]
    rfl

/-- Where the first run does not stop at the end of the text, another may stop at a brace. -/
theorem check_closeBrace {h₀ h h' : Bool → Reader α} (hrefuses : Refuses (· = .eof) (h₀ false))
    (hb : ∀ b, Lifts Enclosed (h₀ b) (h b) (h' b)) :
    Lifts Enclosed (Reader.check .closeBrace >>= h₀) (Reader.check .closeBrace >>= h)
      (Reader.check .closeBrace >>= h') := by
  refine of_refuses (fun c x heof hrun => ?_) fun c₀ c c' a d₀ hsame hc hdeep hrun => ?_
  · rw [bind_of_ok h₀ (check_of_ne (by rw [heof]; decide))] at hrun
    exact hrefuses c x heof hrun
  · have hcurrent : c.current = c₀.current := (List.cons.inj hsame).1
    replace hrun : h₀ (c₀.current.kind == .closeBrace) c₀ = .ok (a, d₀) := hrun
    rw [← hcurrent] at hrun
    have hkind := Token.kind_eq_of_face hc.head.1
    have hlift := hb _ hsame hc.1 hdeep hrun
    show (∃ d d', h (c.current.kind == .closeBrace) c = .ok (a, d) ∧
      h' (c'.current.kind == .closeBrace) c' = .ok (a, d') ∧ _) ∨
        Limited (h' (c'.current.kind == .closeBrace) c')
    rwa [← hkind]

theorem eat (hk : ¬ k.IsEnd) : Lifts Enclosed (Reader.eat k) (Reader.eat k) (Reader.eat k) := by
  intro c₀ c c' yes d₀ hsame hc hdeep hrun
  have hcurrent : c.current = c₀.current := (List.cons.inj hsame).1
  unfold Reader.eat at hrun
  rw [← hcurrent] at hrun
  obtain hc | ⟨hc, hu⟩ := hc.inside_or_atEnd
  · have hkind := Token.kind_eq_of_face hc.head.1
    by_cases hyes : c.current.kind = k
    · rw [if_pos hyes] at hrun
      cases hrun
      have hdeep : c.next.deepest ≤ c'.next.deepest := by rwa [deepest_next, deepest_next]
      exact .inl ⟨_, _, if_pos hyes, if_pos (hkind ▸ hyes), tokens_next_eq hsame, hc.head.2, hdeep⟩
    · rw [if_neg hyes] at hrun
      cases hrun
      exact .inl ⟨_, _, if_neg hyes, if_neg (hkind ▸ hyes), hsame, hc.1, hdeep⟩
  · have hno : ¬ c.current.kind = k := fun h => hk (.inr (h.symm.trans hc.2))
    have hno' : ¬ c'.current.kind = k := fun h => hk (h ▸ hu)
    rw [if_neg hno] at hrun
    cases hrun
    exact .inl ⟨_, _, if_neg hno, if_neg hno', hsame, hc.1, hdeep⟩

theorem expect (hk : k ≠ .eof) (h : Lifts Enclosed r₀ r r') :
    Lifts Enclosed (Reader.expect k >>= fun _ => r₀) (Reader.expect k >>= fun _ => r)
      (Reader.expect k >>= fun _ => r') := by
  refine of_refuses (.bind (p := (· = .eof)) (.expect hk) _)
    fun c₀ c c' a d₀ hsame hc hdeep hrun => ?_
  obtain ⟨t, s, hs, hf⟩ := bind_eq_ok hrun
  obtain ⟨hkind₀, rfl, rfl⟩ := expect_eq_ok hs
  have hcurrent : c.current = c₀.current := (List.cons.inj hsame).1
  have hkind : c.current.kind = k := hcurrent ▸ hkind₀
  have hkind' : c'.current.kind = k := (Token.kind_eq_of_face hc.head.1).symm.trans hkind
  rw [bind_of_ok _ (expect_of_kind hkind), bind_of_ok _ (expect_of_kind hkind')]
  have hadvance : Lifts Inside (Reader.advance >>= fun _ => r₀) (Reader.advance >>= fun _ => r)
      (Reader.advance >>= fun _ => r') := advance fun _ _ _ => h
  exact hadvance hsame hc hdeep hf

theorem skip {p : TokenKind → Bool} (hp : ∀ k, p k = true → ¬ k.IsEnd) :
    Lifts Enclosed (fun c => .ok ((), c.skip p)) (fun c => .ok ((), c.skip p)) fun c =>
      .ok ((), c.skip p) := by
  intro c₀ c c' u d₀ hsame hc hdeep hrun
  cases hrun
  refine .inl ⟨_, _, rfl, rfl, ?_, hc.skip hp, ?_⟩
  · rw [Cursor.tokens_skip, Cursor.tokens_skip, hsame]
  · rwa [deepest_skip, deepest_skip]

theorem skipNewlines : Lifts Enclosed Reader.skipNewlines Reader.skipNewlines Reader.skipNewlines :=
  skip fun _ => not_isEnd_of_newline

theorem skipSeparators :
    Lifts Enclosed Reader.skipSeparators Reader.skipSeparators Reader.skipSeparators :=
  skip fun k hk => by
    obtain hk | hk := Bool.or_eq_true_iff.mp hk <;> rw [beq_iff_eq.mp hk] <;> decide

theorem ofToken {h₀ h h' : β → Reader α} {t u v : Token} (x : Except SourceFault β)
    (hread : ∀ b, Lifts P (h₀ b) (h b) (h' b)) :
    Lifts P (Reader.ofToken t x >>= h₀) (Reader.ofToken u x >>= h) (Reader.ofToken v x >>= h') := by
  cases x with
  | ok b => exact hread b
  | error fault => exact never fun _ _ => nofun

end Lifts

end Reader

end SchemaMock
