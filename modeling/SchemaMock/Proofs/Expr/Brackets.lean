import SchemaMock.Proofs.Expr.Embedding
import SchemaMock.Proofs.Expr.Enclosure

/-! # Patterns and lists

A bracket opens a list or the label of a pattern. Where the label of a pattern can be read, an
expression ends at the colon behind it.
-/

namespace SchemaMock.Parser

open Reader

variable {lv : Level} {c d : Cursor} {x : Expr}

def patternLabel (lv : Level) : Reader Expr := do
  let _ ← advance
  skipNewlines
  let label ← expr lv
  skipNewlines
  let _ ← expect .closeBracket
  let _ ← expect .colon
  return label

theorem declBody_bracket (h : c.current.kind = .openBracket) :
    declBody lv c = (patternLabel lv >>= fun label => expr lv >>= fun x => pure (.pattern label x))
      c := by
  rw [declBody, current_bind, h]
  simp only [patternLabel, bind_assoc, pure_bind]

theorem exists_of_patternLabel {y : Expr × Cursor} (h : patternLabel lv c = .ok y) :
    ∃ x d, expr lv (c.next.skip (· == .newline)) = .ok (x, d) ∧
      (d.skip (· == .newline)).current.kind = .closeBracket ∧
      (d.skip (· == .newline)).next.current.kind = .colon := by
  rw [patternLabel, advance_bind, bind_of_ok (a := ()) _ rfl] at h
  obtain ⟨x, d, hread, h⟩ := bind_eq_ok h
  rw [bind_of_ok (a := ()) _ rfl] at h
  obtain ⟨t, s, hbracket, h⟩ := bind_eq_ok h
  obtain ⟨hkind, rfl, rfl⟩ := expect_eq_ok hbracket
  obtain ⟨u, s, hcolon, h⟩ := bind_eq_ok h
  exact ⟨x, d, hread, hkind, (expect_eq_ok hcolon).1⟩

theorem exists_of_listItems {y : (List Expr × Option Expr) × Cursor}
    (hbracket : c.current.kind ≠ .closeBracket) (hellipsis : c.current.kind ≠ .ellipsis)
    (h : listItems lv c = .ok y) : ∃ x d, expr lv c = .ok (x, d) := by
  obtain ⟨t, s, hturn, -⟩ := bind_eq_ok h
  replace hturn : (check .closeBracket >>= _) c = _ := hturn
  rw [bind_of_ok _ (check_of_ne hbracket)] at hturn
  replace hturn : (eat .ellipsis >>= _) c = _ := hturn
  rw [bind_of_ok _ (eat_of_ne hellipsis)] at hturn
  obtain ⟨t', s', hitem, -⟩ := bind_eq_ok hturn
  obtain ⟨x, d, hread, -⟩ := bind_eq_ok hitem
  exact ⟨x, d, hread⟩

theorem listItems_single (hbracket : c.current.kind ≠ .closeBracket)
    (hellipsis : c.current.kind ≠ .ellipsis) (h : expr lv c = .ok (x, d))
    (hend : (d.skip (· == .newline)).current.kind = .closeBracket) :
    listItems lv c = .ok (([x], none), d.skip (· == .newline)) := by
  have hitem : commaItem lv [] c = .ok (.done [x], d.skip (· == .newline)) := by
    rw [commaItem, bind_of_ok _ h, bind_of_ok (a := ()) _ rfl,
      bind_of_ok _ (eat_of_ne (by rw [hend]; exact TokenKind.noConfusion))]
    rfl
  refine loop_of_done ?_
  rw [bind_of_ok _ (check_of_ne hbracket)]
  show (eat .ellipsis >>= _) c = _
  rw [bind_of_ok _ (eat_of_ne hellipsis)]
  show (commaItem lv [] >>= _) c = _
  rw [bind_of_ok _ hitem]
  rfl

/-- The label of a pattern can be read here, perhaps inside braces. -/
def Patterned (ts : List Token) : Prop :=
  ∃ left c y, c.current.kind = .openBracket ∧ Enclosed ts c.tokens ∧
    patternLabel (level left) c = .ok y

theorem Patterned.heads {ts : List Token} (h : Patterned ts) : Heads (· = .openBracket) ts := by
  obtain ⟨left, c, y, hkind, henclosed, -⟩ := h
  obtain ⟨t, ts, rfl⟩ := List.exists_cons_of_ne_nil henclosed.ne_nil
  obtain ⟨-, hface, -⟩ | ⟨-, hend⟩ := henclosed.head
  · exact (Token.kind_eq_of_face hface).trans hkind
  · rw [hkind] at hend
    exact absurd hend (by decide)

theorem stopsAtMark_primary_pattern (left₀ : Nat) :
    StopsAtMark Patterned (primary (level left₀)) := by
  intro c₀ a d hc hrun
  have hkind₀ : c₀.current.kind = .openBracket := hc.heads
  obtain ⟨left, c, y, hkind, henclosed, hlabel⟩ := hc
  let s₀ := c₀.next.skip (· == .newline)
  let s := c.next.skip (· == .newline)
  have hinside : Inside c₀.tokens c.tokens :=
    ⟨henclosed, fun heof => nomatch hkind₀.symm.trans heof⟩
  have hs : Enclosed s₀.tokens s.tokens := hinside.head.2.skip fun _ => not_isEnd_of_newline
  obtain ⟨x, e, hread, hclose, hcolon⟩ := exists_of_patternLabel hlabel
  -- what the label begins with is no end of a list
  have hstart {k : TokenKind} (hk : ¬ k.startsOperand = true) (hend : ¬ k.IsEnd) :
      s₀.current.kind ≠ k := fun he =>
    refuses_expr (refuses_unary left) s _ (((hs.kind_iff hend).mp he).symm ▸ hk) hread
  have hbracket : s₀.current.kind ≠ .closeBracket := hstart (by decide) (by decide)
  have hellipsis : s₀.current.kind ≠ .ellipsis := hstart (by decide) (by decide)
  have hprimary : primary (level left₀) c₀ = (listItems (level left₀) >>= fun items => do
      let _ ← expect .closeBracket
      return .list items.1 items.2) s₀ := by
    rw [primary, current_bind, hkind₀]
    rfl
  rw [hprimary] at hrun
  obtain ⟨items, s₁, hitems, hrest⟩ := bind_eq_ok hrun
  obtain ⟨x₀, e₀, hread₀⟩ := exists_of_listItems hbracket hellipsis hitems
  -- the list holds what the label holds, up to the bracket
  have hlift : Lifts Enclosed (expr (level left₀)) (expr (level left)) (expr (level left)) :=
    lifts_expr (lifts_level left₀ (Nat.le_refl left))
  obtain ⟨f, f', -, hf', hsame, hf, -⟩ | ⟨span, n, hlimit⟩ :=
    @hlift s₀ { s₀ with deepest := s.deepest } s x₀ e₀ rfl hs (Nat.le_refl _) hread₀
  case inr => cases hread.symm.trans hlimit
  cases hread.symm.trans hf'
  rw [hsame] at hf
  have hend := hf.skip fun _ => not_isEnd_of_newline
  have hclose₀ : (e₀.skip (· == .newline)).current.kind = .closeBracket :=
    (hend.kind_iff (by decide)).mpr hclose
  have hnext : Inside (e₀.skip (· == .newline)).tokens (e.skip (· == .newline)).tokens :=
    ⟨hend, fun heof => nomatch hclose₀.symm.trans heof⟩
  cases hitems.symm.trans (listItems_single hbracket hellipsis hread₀ hclose₀)
  rw [bind_of_ok _ (expect_of_kind hclose₀)] at hrest
  cases hrest
  exact .inl ((hnext.head.2.kind_iff not_isEnd_colon).mpr hcolon)

theorem stopsAtMark_pattern (left : Nat) : StopsAtMark Patterned (expr (level left)) := by
  refine stopsAtMark_expr (fun ts hts => ?_) stopsAtMark_primary_pattern left
  exact hts.heads.mono fun k hk => by rw [hk]; rfl

end SchemaMock.Parser
