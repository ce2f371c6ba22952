import SchemaMock.Proofs.Expr.Brackets
import SchemaMock.Proofs.Expr.Precedence

/-! # A field within braces

What stands within braces is read one level down, and where it is one declaration, it ends before
the brace that closes them. The braces nest twice: once as an operand, once for the declaration in
them.
-/

namespace SchemaMock

/-- Newlines, and then nothing but closing braces. -/
inductive Trails : List Token → Prop where
  | closers {ts : List Token} : Closers ts → Trails ts
  | newline {t : Token} {ts : List Token} : t.kind = .newline → Trails ts → Trails (t :: ts)

theorem Closers.heads {ts : List Token} (h : Closers ts) : Heads TokenKind.IsEnd ts := by
  cases h with
  | last h => exact .inr h
  | cons h => exact .inl h

theorem Closers.ne_nil {ts : List Token} (h : Closers ts) : ts ≠ [] := by
  cases h <;> exact List.cons_ne_nil _ _

/-- Past a closing brace there are closing braces still. -/
theorem Closers.next {c : Cursor} (h : Closers c.tokens) (hkind : c.current.kind = .closeBrace) :
    Closers c.next.tokens := by
  obtain ⟨t, ts, n⟩ := c
  cases h with
  | last h => cases hkind.symm.trans h
  | cons _ h => rwa [Cursor.tokens_next rfl h.ne_nil]

theorem Closers.dropFirst {p : TokenKind → Bool} {ts : List Token} (hp : ∀ k, k.IsEnd → p k = false)
    (h : Closers ts) : dropFirst p ts = ts := by
  cases h with
  | last => rfl
  | @cons t ts hkind h =>
    obtain ⟨u, us, rfl⟩ := List.exists_cons_of_ne_nil h.ne_nil
    rw [SchemaMock.dropFirst, if_neg (by rw [hp t.kind (.inl hkind)]; exact Bool.false_ne_true)]

namespace Trails

variable {ts us : List Token}

theorem ne_nil (h : Trails ts) : ts ≠ [] := by
  cases h with
  | closers h => exact h.ne_nil
  | newline => exact List.cons_ne_nil _ _

theorem past_separators (h : Trails ts) :
    Closers (dropFirst (fun k => k == .newline || k == .comma) ts) := by
  induction h with
  | closers h =>
    have hp (k : TokenKind) (hk : k.IsEnd) : (k == .newline || k == .comma) = false := by
      obtain rfl | rfl := hk <;> rfl
    rwa [h.dropFirst hp]
  | @newline t ts hkind h ih =>
    obtain ⟨u, us, rfl⟩ := List.exists_cons_of_ne_nil h.ne_nil
    rw [dropFirst, hkind]
    exact ih

/-- Where the text ends, inside braces only what closes them is to come. -/
theorem of_ended (h : Enclosed ts us) (hend : Parser.Ended ts) : Trails us := by
  induction h with
  | last _ h => exact .closers h
  | @cons t u ts us hne hface h ih =>
    obtain ⟨v, vs, rfl⟩ := List.exists_cons_of_ne_nil h.ne_nil
    rw [Parser.Ended, dropFirst] at hend
    split at hend
    case isTrue hnewline =>
      exact .newline ((Token.kind_eq_of_face hface).symm.trans (beq_iff_eq.mp hnewline)) (ih hend)
    case isFalse => exact absurd hend hne

end Trails

namespace Parser

open Reader

variable {lv : Level} {c d s : Cursor} {ds : List Decl} {stop : TokenKind}

theorem startsOperand_of_isEnd {k : TokenKind} (h : k.IsEnd) : k.startsOperand = false := by
  obtain rfl | rfl := h <;> rfl

/-! ## The declarations within -/

/-- What follows a declaration, where it is separated from closing braces by newlines. -/
theorem declaration_of_trails {done : List Decl} {t : Turn (List Decl) (List Decl)}
    (hrefuses : Refuses TokenKind.IsEnd lv.decl) (htrails : Trails d.tokens)
    (h : declaration lv stop done d = .ok (t, s)) :
    t = .done done.reverse ∧ s.current.kind = stop ∧ Closers s.tokens := by
  have hclosers := htrails.past_separators
  rw [← Cursor.tokens_skip] at hclosers
  have hend : (d.skip fun k => k == .newline || k == .comma).current.kind.IsEnd := hclosers.heads
  rw [declaration, bind_of_ok (a := ()) _ rfl] at h
  by_cases hkind : (d.skip fun k => k == .newline || k == .comma).current.kind = stop
  · rw [bind_of_ok _ (check_of_kind hkind)] at h
    cases h
    exact ⟨rfl, hkind, hclosers⟩
  · rw [bind_of_ok _ (check_of_ne hkind)] at h
    exact absurd h (hrefuses.bind _ _ _ hend)

/-- One declaration, with nothing behind it but closing braces, is all there is, and the first brace
ends it. -/
theorem decls_of_trails (hstart : c.current.kind.startsOperand = true) (hstop : stop.IsEnd)
    (hrefuses : Refuses TokenKind.IsEnd lv.decl)
    (htrails : ∀ x d, lv.decl c = .ok (x, d) → Trails d.tokens)
    (h : decls lv stop c = .ok (ds, s)) :
    ∃ x d, lv.decl c = .ok (x, d) ∧ ds = [x] ∧ s.current.kind = stop ∧ Closers s.tokens := by
  have hstop' := startsOperand_of_isEnd hstop
  cases hdecl : lv.decl c with
  | error m => cases h.symm.trans (decls_of_error hstart hstop' hdecl)
  | ok p =>
    obtain ⟨x, d⟩ := p
    refine ⟨x, d, rfl, ?_⟩
    have htrails := htrails x d hdecl
    obtain ⟨t, s₁, hturn, h⟩ := bind_eq_ok (decls_eq lv stop ▸ h)
    rw [declaration_eq hstart hstop', bind_of_ok _ hdecl, separated, current_bind] at hturn
    split at hturn
    case isTrue hseparator =>
      cases hturn
      cases hn : c.later.length with
      | zero =>
        rw [hn] at h
        cases h
      | succ n =>
        rw [hn] at h
        obtain ⟨t, s₂, hturn, h⟩ := bind_eq_ok h
        obtain ⟨rfl, hkind, hclosers⟩ := declaration_of_trails hrefuses htrails hturn
        cases h
        exact ⟨rfl, hkind, hclosers⟩
    case isFalse hseparator =>
      split at hturn
      case isTrue hkind =>
        cases hturn
        cases h
        refine ⟨rfl, hkind, ?_⟩
        generalize hts : s.tokens = ts at htrails ⊢
        cases htrails with
        | closers h => exact h
        | newline hnewline =>
          rw [← (List.cons.inj hts).1] at hnewline
          exact absurd (.inl hnewline) hseparator
      case isFalse => cases hturn

/-! ## The braces -/

/-- A level down, where it is not too deep. -/
theorem decl_succ {left : Nat} (h : c.deepest ≤ (level left).depth) :
    (level (left + 1)).decl c = declBody (level left) { c with deepest := (level left).depth } := by
  have hdepth : (level left).depth ≤ maxDepth := by
    rw [level_depth]
    exact Nat.le_trans (Nat.sub_le maxNesting left) (by decide)
  have hreach :
      reach (level left).depth c = .ok ((), { c with deepest := (level left).depth }) := by
    rw [reach_of_le hdepth, Nat.max_eq_right h]
  exact bind_of_ok _ hreach

theorem primary_openBrace (h : c.current.kind = .openBrace) :
    primary lv c = (decls lv .closeBrace >>= fun ds => do
    let _ ← expect .closeBrace
    return .struct ds) c.next := by
  rw [primary, current_bind, h]
  rfl

/-- A struct by itself holds what stands within its braces, two levels down. -/
theorem struct_of_expr {left : Nat} {x : Expr} (hkind : c.current.kind = .openBrace)
    (h : expr (level left) c = .ok (x, d)) : ∃ below ds s, left = below + 1 ∧
      decls (level below) .closeBrace { c.next with deepest := (level below).depth } = .ok (ds, s) ∧
      s.current.kind = .closeBrace ∧
        (s.next.current.kind.IsEnd → x = .struct ds ∧ d.tokens = s.next.tokens) := by
  rw [expr, binary_succ] at h
  obtain ⟨d₁, hbinary, rfl⟩ := subtree_eq_ok h
  obtain ⟨x₁, s₁, hunary, hoperators⟩ := bind_eq_ok hbinary
  cases left with
  | zero => cases hunary
  | succ below =>
    obtain ⟨u, c₂, hreach, hbody⟩ := bind_eq_ok hunary
    obtain ⟨-, rfl⟩ := reach_eq_ok hreach
    rw [unaryBody, current_bind, show prefixOp? c.current.kind = none by rw [hkind]; rfl] at hbody
    obtain ⟨s₂, hchain, rfl⟩ := subtree_eq_ok hbody
    obtain ⟨x₂, s₃, hprimary, hselections⟩ := bind_eq_ok hchain
    rw [primary_openBrace (show (Cursor.mk c.current c.later (level below).depth).current.kind = .openBrace from hkind)]
      at hprimary
    obtain ⟨ds, s, hdecls, hbrace⟩ := bind_eq_ok hprimary
    obtain ⟨t, s', hexpect, hstruct⟩ := bind_eq_ok hbrace
    obtain ⟨hclose, rfl, rfl⟩ := expect_eq_ok hexpect
    cases hstruct
    refine ⟨below, ds, s, rfl, ?_, hclose, fun hend => ?_⟩
    · rw [← Cursor.next_with]
      exact hdecls
    · -- neither a selection nor an operator follows
      have hne {k : TokenKind} (hk : ¬ k.IsEnd) : s.next.current.kind ≠ k :=
        fun he => hk (he ▸ hend)
      have hturn :
          postfixTurn (level below) (.struct ds) s.next = .ok (.done (.struct ds), s.next) :=
        postfixTurn_done (hne (by decide)) (hne (by decide)) (hne (by decide))
      rw [loop_of_done hturn] at hselections
      cases hselections
      have hlast {n : Nat} :
          operation (binary (level (below + 1)) 7) 1 (.struct ds) { s.next with deepest := n } =
          .ok (.done (.struct ds), { s.next with deepest := n }) := by
        rw [operation, current_bind, binaryOp?_of_isEnd hend]
        rfl
      cases (loop_of_done hlast).symm.trans hoperators
      exact ⟨rfl, rfl⟩

end Parser

end SchemaMock
