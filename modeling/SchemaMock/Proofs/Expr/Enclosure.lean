import SchemaMock.Proofs.Expr.Lifting

/-! # Expressions inside braces

Every reader of the grammar lifts out of the braces around an expression: what it reads deep inside
them it reads outside of them too.
-/

namespace SchemaMock.Parser

open Reader

variable {α : Type} {P : TokensRel} {lv₀ lv lv' : Level}

theorem isLabelKind_of_isEnd {k : TokenKind} (h : k.IsEnd) : isLabelKind k = false := by
  obtain rfl | rfl := h <;> rfl

theorem binaryOp?_of_isEnd {k : TokenKind} (h : k.IsEnd) : binaryOp? k = none := by
  obtain rfl | rfl := h <;> rfl

theorem not_isEnd_colon : ¬ TokenKind.colon.IsEnd := by decide

theorem not_startsOperand_of_eof {k : TokenKind} (h : k = .eof) : ¬ k.startsOperand = true := by
  rw [h]
  exact Bool.false_ne_true

/-! ## Looking ahead -/

theorem isLabelStart_same {c c₀ : Cursor} (h : c.tokens = c₀.tokens) {yes : Bool}
    (hyes : isLabelStart c = .ok (yes, c)) : isLabelStart c₀ = .ok (yes, c₀) := by
  have hnext := Lifts.tokens_next_eq h
  rw [isLabelStart_eq] at hyes ⊢
  rw [← (List.cons.inj h).1, ← (List.cons.inj hnext).1,
    ← (List.cons.inj (Lifts.tokens_next_eq hnext)).1]
  exact congrArg (fun b => Except.ok (b, c₀)) (congrArg Prod.fst (Except.ok.inj hyes))

theorem isLabelStart_enclosed {c c' : Cursor} (h : Enclosed c.tokens c'.tokens) :
    ∃ yes, isLabelStart c = .ok (yes, c) ∧ isLabelStart c' = .ok (yes, c') := by
  obtain hc | ⟨hc, hu⟩ := h.inside_or_atEnd
  case inr =>
    have heof : isLabelKind c.current.kind = false := isLabelKind_of_isEnd (.inr hc.2)
    exact ⟨false, isLabelStart_of_not heof, isLabelStart_of_not (isLabelKind_of_isEnd hu)⟩
  have hnext := hc.head.2
  refine ⟨_, isLabelStart_eq c, ?_⟩
  rw [isLabelStart_eq c', Token.kind_eq_of_face hc.head.1, hnext.kind_beq not_isEnd_colon]
  obtain hn | ⟨hn, hv⟩ := hnext.inside_or_atEnd
  · rw [Token.kind_eq_of_face hn.head.1, hn.head.2.kind_beq not_isEnd_colon]
  · have hno : c.next.current.kind ≠ .question := by
      rw [show c.next.current.kind = .eof from hn.2]
      exact TokenKind.noConfusion
    have hno' : c'.next.current.kind ≠ .question := by
      obtain hk | hk := hv <;> rw [hk] <;> exact TokenKind.noConfusion
    rw [beq_false_of_ne hno, beq_false_of_ne hno', Bool.false_and, Bool.false_and]

theorem closesBeforeColon_closers {us : List Token} (h : Closers us) (nested : Nat) :
    closesBeforeColon nested us = false := by
  induction h with
  | last h => rw [closesBeforeColon, h]
  | cons h _ ih => rw [closesBeforeColon, h, ih]

theorem closesBeforeColon_enclosed {ts us : List Token} (h : Enclosed ts us) (nested : Nat) :
    closesBeforeColon nested ts = closesBeforeColon nested us := by
  induction h generalizing nested with
  | last ht hus =>
    rw [closesBeforeColon, ht, closesBeforeColon_closers hus]
  | @cons t u ts us _ hface h ih =>
    refine closesBeforeColon_cons (Token.kind_eq_of_face hface) (fun _ => ?_) ih nested
    obtain ⟨v, vs, rfl⟩ := List.exists_cons_of_ne_nil h.ne_nil
    obtain ⟨w, ws, rfl⟩ := List.exists_cons_of_ne_nil h.ne_nil_right
    exact @Enclosed.kind_beq ⟨v, vs, 0⟩ ⟨w, ws, 0⟩ .colon h not_isEnd_colon

theorem lifts_isLabelStart {f₀ f f' : Bool → Reader α} (hP : ∀ ts us, P ts us → Enclosed ts us)
    (h : ∀ yes, Lifts P (f₀ yes) (f yes) (f' yes)) :
    Lifts P (isLabelStart >>= f₀) (isLabelStart >>= f) (isLabelStart >>= f') := by
  intro c₀ c c' a d₀ hsame hc hdeep hrun
  obtain ⟨yes, hyes, hyes'⟩ := isLabelStart_enclosed (hP _ _ hc)
  rw [bind_of_ok f₀ (isLabelStart_same hsame hyes)] at hrun
  rw [bind_of_ok f hyes, bind_of_ok f' hyes']
  exact h yes hsame hc hdeep hrun

theorem isPatternStart_eq (c : Cursor) :
    isPatternStart c = .ok (c.current.kind == .openBracket && closesBeforeColon 0 c.tokens, c) :=
  rfl

theorem isPatternStart_enclosed {c c' : Cursor} (h : Enclosed c.tokens c'.tokens) :
    ∃ yes, isPatternStart c = .ok (yes, c) ∧ isPatternStart c' = .ok (yes, c') := by
  refine ⟨_, isPatternStart_eq c, ?_⟩
  rw [isPatternStart_eq, h.kind_beq (by decide), closesBeforeColon_enclosed h]

theorem lifts_isPatternStart : Lifts Enclosed isPatternStart isPatternStart isPatternStart := by
  intro c₀ c c' yes d₀ hsame hc hdeep hrun
  obtain ⟨pattern, hpattern, hpattern'⟩ := isPatternStart_enclosed hc
  rw [isPatternStart_eq, ← hsame, ← (List.cons.inj hsame).1] at hrun
  rw [isPatternStart_eq] at hpattern
  obtain ⟨rfl, -⟩ := Prod.mk.inj (Except.ok.inj hpattern)
  obtain ⟨rfl, rfl⟩ := Prod.mk.inj (Except.ok.inj hrun)
  exact .inl ⟨c, c', isPatternStart_eq c, hpattern', hsame, hc, hdeep⟩

def labelText (f : Face) : Except SourceFault Label :=
  if f.1 = .string then .regular <$> Literal.unquote f.2 else .ok (Label.ofIdent f.2)

theorem labelOf_eq (t : Token) : labelOf t = ofToken t (labelText t.face) := by
  rw [labelOf, labelText, show t.face = (t.kind, t.text) from rfl]
  dsimp only
  split
  · cases Literal.unquote t.text <;> rfl
  · rfl

theorem lifts_labelOf {f₀ f f' : Label → Reader α} {t u : Token} (hface : t.face = u.face)
    (h : ∀ label, Lifts P (f₀ label) (f label) (f' label)) :
    Lifts P (labelOf t >>= f₀) (labelOf t >>= f) (labelOf u >>= f') := by
  rw [labelOf_eq, labelOf_eq, hface]
  exact .ofToken _ h

/-! ## Declarations -/

/-- The readers of one level lift from the second to the third. -/
structure Level.Lifts (lv₀ lv lv' : Level) : Prop where
  depth : lv.depth ≤ lv'.depth
  decl : Reader.Lifts Enclosed lv₀.decl lv.decl lv'.decl
  unary : Reader.Lifts Enclosed lv₀.unary lv.unary lv'.unary
  refusesDecl : Refuses (· = .eof) lv₀.decl
  refusesUnary : Refuses (· = .eof) lv₀.unary

theorem lifts_binary (h : lv₀.Lifts lv lv') (rounds least : Nat) :
    Lifts Enclosed (binary lv₀ rounds least) (binary lv rounds least)
      (binary lv' rounds least) := by
  induction rounds generalizing least with
  | zero => exact h.unary
  | succ rounds ih =>
    rw [binary, binary, binary]
    refine .subtree h.depth (.bind h.unary (.loop fun lhs => .current (fun t u htu => ?_) fun t u ht hu => ?_))
    · rw [← Token.kind_eq_of_face htu]
      split
      case h_1 => exact .inside .pure
      case h_2 op _ =>
        split
        case isTrue => exact .inside .pure
        case isFalse =>
          exact .wrap (.advance fun _ _ _ => .bind .skipNewlines fun _ => .bind (ih _) fun rhs => .pure)
    · rw [ht, binaryOp?_of_isEnd hu]
      exact .atEnd .pure

theorem lifts_expr (h : lv₀.Lifts lv lv') : Lifts Enclosed (expr lv₀) (expr lv) (expr lv') :=
  lifts_binary h 8 1

theorem lifts_field (h : lv₀.Lifts lv lv') : Lifts Inside (field lv₀) (field lv) (field lv') := by
  unfold field
  refine .advance fun t u htu => lifts_labelOf htu fun label => .bind (.eat ?_) fun optional => ?_
  · decide
  refine .expect TokenKind.noConfusion ?_
  refine lifts_isLabelStart (fun _ _ => id) fun _ => .bind lifts_isPatternStart fun _ => ?_
  split
  · exact .bind h.decl fun d => .pure
  · exact .bind (lifts_expr h) fun x => .pure

theorem lifts_declBody (hrefuses : Refuses (· = .eof) (declBody lv₀)) (h : lv₀.Lifts lv lv') :
    Lifts Enclosed (declBody lv₀) (declBody lv) (declBody lv') := by
  refine .of_refuses hrefuses ?_
  unfold declBody
  refine .current_inside fun t u htu => ?_
  rw [← Token.kind_eq_of_face htu]
  generalize t.kind = k
  split
  · exact .advance fun _ _ _ => .pure
  · refine .advance fun _ _ _ => .bind .skipNewlines fun _ => .bind (lifts_expr h) fun label => ?_
    refine .bind .skipNewlines fun _ =>
      .expect TokenKind.noConfusion (.expect TokenKind.noConfusion ?_)
    exact .bind (lifts_expr h) fun x => .pure
  · refine lifts_isLabelStart (fun _ _ => And.left) fun starts => ?_
    cases starts with
    | true => exact lifts_field h
    | false => exact .inside (.bind (lifts_expr h) fun x => .pure)

theorem lifts_decls (h : lv₀.Lifts lv lv') :
    Lifts Enclosed (decls lv₀ .closeBrace) (decls lv .closeBrace) (decls lv' .closeBrace) := by
  unfold decls
  refine .loop (fun done => ?_) []
  refine .bind .skipSeparators fun _ => .check_closeBrace (h.refusesDecl.bind _) fun stopped => ?_
  split
  · exact .pure
  · refine .bind h.decl fun d => .current (fun t u htu => ?_) fun t u ht _ => ?_
    · rw [← Token.kind_eq_of_face htu]
      dsimp only
      split
      · exact .inside .pure
      · split
        · exact .inside .pure
        · exact .unexpected
    · rw [ht]
      exact .unexpected

/-! ## Operands -/

theorem lifts_commaItem (h : lv₀.Lifts lv lv') (done : List Expr) :
    Lifts Enclosed (commaItem lv₀ done) (commaItem lv done) (commaItem lv' done) := by
  unfold commaItem
  refine .bind (lifts_expr h) fun x => .bind .skipNewlines fun _ => .bind (.eat ?_) fun comma => ?_
  · decide
  · cases comma with
    | true => exact .bind .skipNewlines fun _ => .pure
    | false => exact .pure

theorem lifts_arguments (h : lv₀.Lifts lv lv') : Lifts Enclosed (arguments lv₀) (arguments lv)
    (arguments lv') := by
  unfold arguments
  refine .loop (fun done => .bind (.check ?_) fun closed => ?_) []
  · decide
  · split
    · exact .pure
    · exact lifts_commaItem h done

theorem lifts_listTail (h : lv₀.Lifts lv lv') : Lifts Enclosed (listTail lv₀) (listTail lv)
    (listTail lv') := by
  have hrest (x : Expr) : Lifts Enclosed
      (do skipNewlines; let _ ← eat .comma; skipNewlines; return x)
      (do skipNewlines; let _ ← eat .comma; skipNewlines; return x)
      (do skipNewlines; let _ ← eat .comma; skipNewlines; return x) :=
    .bind .skipNewlines fun _ => .bind (.eat (by decide)) fun _ => .bind .skipNewlines
    fun _ => .pure
  unfold listTail
  refine .current (fun t u htu => ?_) fun t u ht _ => ?_
  · rw [← Token.kind_eq_of_face htu]
    dsimp only
    split
    · exact (hrest _).inside
    · exact .inside (.bind (lifts_expr h) hrest)
  · rw [ht]
    exact .refused ((refuses_expr h.refusesUnary).bind _)

theorem lifts_listItems (h : lv₀.Lifts lv lv') : Lifts Enclosed (listItems lv₀) (listItems lv)
    (listItems lv') := by
  unfold listItems
  refine .loop (fun done => .bind (.check ?_) fun closed => ?_) []
  · decide
  split
  · exact .pure
  · refine .bind (.eat (by decide)) fun ellipsis => ?_
    cases ellipsis with
    | true => exact .bind (lifts_listTail h) fun tail => .pure
    | false =>
      refine .bind (lifts_commaItem h done) fun turn => ?_
      cases turn with
      | again xs => exact .pure
      | done xs => exact .pure

theorem lifts_primary (h : lv₀.Lifts lv lv') :
    Lifts Enclosed (primary lv₀) (primary lv) (primary lv') := by
  have hconst {x : Expr} :
      Lifts Inside (do let _ ← advance; return x) (do let _ ← advance; return x)
      (do let _ ← advance; return x) := .advance fun _ _ _ => .pure
  refine .of_refuses ((refuses_primary lv₀).mono fun _ => not_startsOperand_of_eof) ?_
  unfold primary
  refine .current_inside fun t u htu => ?_
  rw [← Token.kind_eq_of_face htu, ← Token.text_eq_of_face htu]
  generalize t.kind = k
  dsimp only
  split
  case h_10 =>
    exact .advance fun _ _ _ => .bind (lifts_decls h) fun ds => .expect TokenKind.noConfusion .pure
  case h_11 =>
    refine .advance fun _ _ _ => .bind .skipNewlines fun _ =>
      .bind (lifts_listItems h) fun items => ?_
    exact .expect TokenKind.noConfusion .pure
  case h_12 =>
    refine .advance fun _ _ _ => .bind .skipNewlines fun _ => .bind (lifts_expr h) fun x => ?_
    exact .bind .skipNewlines fun _ => .expect TokenKind.noConfusion .pure
  case h_13 => exact .unexpected
  case h_1 | h_3 => exact .ofToken _ fun _ => hconst
  all_goals exact hconst

theorem lifts_postfixTurn (h : lv₀.Lifts lv lv') (x : Expr) :
    Lifts Enclosed (postfixTurn lv₀ x) (postfixTurn lv x) (postfixTurn lv' x) := by
  unfold postfixTurn
  refine .current (fun t u htu => ?_) fun t u ht hu => ?_
  · rw [← Token.kind_eq_of_face htu]
    generalize t.kind = k
    split
    · refine .wrap (.advance fun _ _ _ => .current (fun v w hvw => ?_) fun v w hv _ => ?_)
      · rw [← Token.kind_eq_of_face hvw]
        split
        · exact lifts_labelOf hvw fun label => .advance fun _ _ _ => .pure
        · exact .unexpected
      · rw [hv]
        exact .unexpected
    · refine .wrap (.advance fun _ _ _ => .bind .skipNewlines fun _ => .bind (lifts_expr h) fun position => ?_)
      exact .bind .skipNewlines fun _ => .expect TokenKind.noConfusion .pure
    · refine .wrap (.advance fun _ _ _ => .bind .skipNewlines fun _ => .bind (lifts_arguments h)
        fun args => ?_)
      exact .expect TokenKind.noConfusion .pure
    · exact .inside .pure
  · rw [ht]
    obtain hu | hu := hu <;> rw [hu] <;> exact .atEnd .pure

theorem lifts_postfixChain (h : lv₀.Lifts lv lv') :
    Lifts Enclosed (postfixChain lv₀) (postfixChain lv) (postfixChain lv') := by
  unfold postfixChain
  exact .subtree h.depth (.bind (lifts_primary h) (.loop (lifts_postfixTurn h)))

theorem lifts_unaryBody (h : lv₀.Lifts lv lv') : Lifts Enclosed (unaryBody lv₀) (unaryBody lv)
    (unaryBody lv') := by
  refine .of_refuses ((refuses_unaryBody lv₀).mono fun _ => not_startsOperand_of_eof) ?_
  unfold unaryBody
  refine .current_inside fun t u htu => ?_
  rw [← Token.kind_eq_of_face htu]
  split
  · exact .advance fun _ _ _ => .bind h.unary fun x => .pure
  · exact (lifts_postfixChain h).inside

/-! ## Levels -/

theorem level_depth (left : Nat) : (level left).depth = maxNesting - left := by
  cases left <;> rfl

theorem level_depth_le {left left' : Nat} (h : left' ≤ left) :
    (level left).depth ≤ (level left').depth := by
  rw [level_depth, level_depth]
  exact Nat.sub_le_sub_left h maxNesting

/-- With more levels left the readers follow those with fewer. -/
theorem lifts_level (left₀ : Nat) {left left' : Nat} (h : left' ≤ left) :
    (level left₀).Lifts (level left) (level left') := by
  have hrefuses (n : Nat) : Refuses (· = .eof) (level n).unary :=
    (refuses_unary n).mono fun _ => not_startsOperand_of_eof
  have heof (k : TokenKind) (hk : k = .eof) : ¬ k.startsOperand = true ∧ k ≠ .ellipsis :=
    ⟨not_startsOperand_of_eof hk, by rw [hk]; exact TokenKind.noConfusion⟩
  have hrefusesDecl (n : Nat) : Refuses (· = .eof) (level n).decl := (refuses_decl n).mono heof
  induction left₀ generalizing left left' with
  | zero =>
    exact ⟨level_depth_le h, .never fun _ _ => nofun, .never fun _ _ => nofun,
      hrefusesDecl 0, hrefuses 0⟩
  | succ left₀ ih =>
    cases left' with
    | zero =>
      have hlimit {α : Type} {r₀ r : Reader α} :
          Lifts Enclosed r₀ r (fail (.nestedDeeper maxNesting)) :=
        fun _ _ c' _ _ _ _ _ _ => .inr ⟨c'.current.span, maxNesting, rfl⟩
      exact ⟨level_depth_le h, hlimit, hlimit, hrefusesDecl _, hrefuses _⟩
    | succ left' =>
      obtain ⟨left, rfl⟩ :=
        Nat.exists_eq_succ_of_ne_zero (Nat.ne_of_gt (Nat.lt_of_lt_of_le left'.succ_pos h))
      have hbelow := ih (Nat.le_of_succ_le_succ h)
      refine ⟨level_depth_le h, ?_, ?_, hrefusesDecl _, hrefuses _⟩
      · exact .reach hbelow.depth (lifts_declBody ((refuses_declBody (refuses_unary left₀)).mono heof) hbelow)
      · exact .reach hbelow.depth (lifts_unaryBody hbelow)

end SchemaMock.Parser
