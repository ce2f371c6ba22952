import SchemaMock.Proofs.Expr.Comparison
import SchemaMock.Proofs.Expr.Follows

/-! # Texts that differ in newlines

Newlines after opening brackets, commas and binary operators, and before closing parentheses and
brackets and commas, are passed over wherever they stand: a text that is read as an expression is
still read as that expression. Elsewhere a newline counts, between brackets too.
-/

namespace SchemaMock

namespace Parser

open Reader

variable {even : Prop} {P : TokensRel} {lv lv' : Level}

/-! ## Classes of tokens -/

theorem startsOperand_of_prefixOp? {k : TokenKind} {apply : Expr → Expr}
    (h : prefixOp? k = some apply) : k.startsOperand = true := by
  unfold prefixOp? at h
  split at h <;> first | rfl | cases h

theorem not_startsOperand {k : TokenKind} (h : k.closes = true) : ¬ k.startsOperand = true := by
  cases k <;> first | exact Bool.false_ne_true | cases h

theorem binaryOp?_of_closes {k : TokenKind} (h : k.closes = true) : binaryOp? k = none := by
  cases k <;> first | rfl | cases h

theorem isLabelKind_of_closes {k : TokenKind} (h : k.closes = true) : isLabelKind k = false := by
  cases k <;> first | rfl | cases h

theorem colon_of_closes {k : TokenKind} (h : k.closes = true) : (k == .colon) = false ∧
    (k == .question) = false := by
  cases k <;> first | exact ⟨rfl, rfl⟩ | cases h

theorem past_binaryOp? {k : TokenKind} {op : BinaryOp} (h : binaryOp? k = some op) :
    Past true k = Ahead false := by
  unfold binaryOp? at h
  split at h <;> cases h <;> rfl

theorem past_prefixOp? {k : TokenKind} {apply : Expr → Expr} (h : prefixOp? k = some apply) :
    Past false k = Loose false := by
  unfold prefixOp? at h
  split at h <;> cases h <;> rfl

theorem past_label {b : Bool} {k : TokenKind} (h : isLabelKind k = true) :
    Past b k = Loose true := by
  cases k <;> first | rfl | cases h

/-! ## Readers that fail at once -/

theorem refuses_primary (lv : Level) : Refuses (¬ ·.startsOperand = true) (primary lv) := by
  unfold primary
  refine .current fun t ht => ?_
  dsimp only
  generalize t.kind = k at ht
  split <;> first | exact absurd rfl ht | exact fun _ _ _ => nofun

theorem refuses_unaryBody (lv : Level) : Refuses (¬ ·.startsOperand = true) (unaryBody lv) := by
  unfold unaryBody
  refine .current fun t ht => ?_
  cases hprefix : prefixOp? t.kind with
  | some apply => exact absurd (startsOperand_of_prefixOp? hprefix) ht
  | none => exact .subtree (.bind (refuses_primary lv) _) _

theorem refuses_unary (left : Nat) : Refuses (¬ ·.startsOperand = true) (level left).unary := by
  cases left with
  | zero => exact fun _ _ _ => nofun
  | succ left => exact .reach (refuses_unaryBody _) _

theorem refuses_expr {p : TokenKind → Prop} (h : Refuses p lv.unary) : Refuses p (expr lv) := by
  rw [expr, binary]
  exact .subtree (.bind h _) _

theorem isLabelStart_of_not {c : Cursor} (h : isLabelKind c.current.kind = false) :
    isLabelStart c = .ok (false, c) := by
  show Except.ok (isLabelKind c.current.kind && _, c) = _
  rw [h]
  rfl

theorem isLabelKind_of_not_startsOperand {k : TokenKind} (h : ¬ k.startsOperand = true) :
    isLabelKind k = false := by
  cases k <;> first | rfl | exact absurd rfl h

theorem refuses_declBody (h : Refuses (¬ ·.startsOperand = true) lv.unary) :
    Refuses (fun k => ¬ k.startsOperand = true ∧ k ≠ .ellipsis) (declBody lv) := by
  unfold declBody
  refine .current fun t ht => ?_
  generalize t.kind = k at ht
  split
  · exact absurd rfl ht.2
  · exact absurd rfl ht.1
  · intro c x hno hrun
    rw [bind_of_ok _ (isLabelStart_of_not (isLabelKind_of_not_startsOperand hno.1))] at hrun
    exact (refuses_expr h).bind _ c x hno.1 hrun

theorem refuses_decl (left : Nat) : Refuses (fun k => ¬ k.startsOperand = true ∧ k ≠ .ellipsis)
    (level left).decl := by
  cases left with
  | zero => exact fun _ _ _ => nofun
  | succ left => exact .reach (refuses_declBody (refuses_unary left)) _

/-- The readers of one level follow those of another. -/
structure Level.Follows (even : Prop) (lv lv' : Level) : Prop where
  depth : even → lv.depth = lv'.depth
  decl : Reader.Follows even (Spaced false) (fun _ => Loose true) lv.decl lv'.decl
  unary : Reader.Follows even (Spaced false) (fun _ => Loose true) lv.unary lv'.unary
  refusesDecl : Refuses (·.closes = true) lv.decl
  refusesUnary : Refuses (·.closes = true) lv.unary

theorem follows_binary (h : lv.Follows even lv') (rounds least : Nat) :
    Follows even (Spaced false) (fun _ => Loose true) (binary lv rounds least)
      (binary lv' rounds least) := by
  induction rounds generalizing least with
  | zero => exact h.unary
  | succ rounds ih =>
    rw [binary, binary]
    refine .subtree h.depth (.bind h.unary (.loop (fun _ _ => Loose.length_le) fun lhs => ?_))
    refine .current_loose (fun t u htu => ?_) fun t u ht hu => ?_
    · rw [← Token.kind_eq_of_face htu]
      split
      case h_1 => exact .pure fun _ _ hc => .inl hc.1
      case h_2 op hop =>
        split
        case isTrue => exact .pure fun _ _ hc => .inl hc.1
        case isFalse =>
          refine .bind .wrap fun _ => .advance fun _ _ _ => ?_
          rw [past_binaryOp? hop]
          exact .bind .skipNewlines fun _ => .bind (ih _) fun rhs => .pure fun _ _ => id
    · rw [binaryOp?_of_closes ht, hu]
      exact .pure fun _ _ hc => .inr hc.1

theorem follows_expr (h : lv.Follows even lv') :
    Follows even (Spaced false) (fun _ => Loose true) (expr lv) (expr lv') := follows_binary h 8 1

theorem follows_expr_loose (h : lv.Follows even lv') :
    Follows even (Loose false) (fun _ => Loose true) (expr lv) (expr lv') :=
  .of_refuses (refuses_expr h.refusesUnary) (follows_expr h)

/-! ## Declarations -/

theorem closesBeforeColon_gap {allowed : Prop} {gap : List Token} (h : Gap allowed gap)
    (nested : Nat) (ts : List Token) :
    closesBeforeColon nested (gap ++ ts) = closesBeforeColon nested ts := by
  induction gap with
  | nil => rfl
  | cons n gap ih =>
    rw [List.cons_append, closesBeforeColon, h.head]
    exact ih ⟨fun m hm => h.newlines m (List.mem_cons_of_mem _ hm),
      fun _ => h.allowed (List.cons_ne_nil _ _)⟩

theorem closesBeforeColon_cons {t u : Token} {ts us : List Token} (hkind : t.kind = u.kind)
    (hnext : t.kind = .closeBracket → ((ts.headD t).kind == .colon) = ((us.headD u).kind == .colon))
    (h : ∀ nested, closesBeforeColon nested ts = closesBeforeColon nested us) (nested : Nat) :
    closesBeforeColon nested (t :: ts) = closesBeforeColon nested (u :: us) := by
  unfold closesBeforeColon
  rw [← hkind]
  split
  case h_2 hclose => rw [hnext hclose, h]
  case h_3 => rfl
  all_goals exact h _

theorem closesBeforeColon_spaced {b : Bool} {ts us : List Token} (h : Spaced b ts us)
    (nested : Nat) : closesBeforeColon nested ts = closesBeforeColon nested us := by
  induction h generalizing nested with
  | last hface =>
    have hkind := Token.kind_eq_of_face hface
    exact closesBeforeColon_cons hkind (fun _ => by rw [List.headD_nil, List.headD_nil, hkind])
      (fun _ => rfl) nested
  | @cons b t u ts us gap hface hgap hs ih =>
    refine closesBeforeColon_cons (Token.kind_eq_of_face hface) (fun hclose => ?_)
      (fun nested => (ih nested).trans (closesBeforeColon_gap hgap nested us).symm) nested
    obtain ⟨v, vs, rfl⟩ := List.exists_cons_of_ne_nil hs.ne_nil
    cases gap with
    | nil =>
      obtain ⟨w, ws, rfl⟩ := List.exists_cons_of_ne_nil hs.ne_nil_right
      show (v.kind == .colon) = (w.kind == .colon)
      rw [Token.kind_eq_of_face hs.head]
    | cons n gap =>
      -- a newline after the bracket belongs to a token that closes, which is no colon either
      have hcloses : v.kind.closes = true :=
        (hgap.allowed (List.cons_ne_nil _ _)).resolve_left
          (by rw [hclose]; exact Bool.false_ne_true)
      show (v.kind == .colon) = (n.kind == .colon)
      rw [hgap.head]
      cases hv : v.kind <;> first | rfl | (rw [hv] at hcloses; cases hcloses)

theorem peek_one (c : Cursor) : c.peek 1 = c.next.current := by
  obtain ⟨t, ts, n⟩ := c
  cases ts <;> rfl

theorem peek_two (c : Cursor) : c.peek 2 = c.next.next.current := by
  obtain ⟨t, ts, n⟩ := c
  match ts with
  | [] | [_] | _ :: _ :: _ => rfl

theorem isLabelStart_eq (c : Cursor) : isLabelStart c =
    .ok (isLabelKind c.current.kind && (c.next.current.kind == .colon ||
      (c.next.current.kind == .question && c.next.next.current.kind == .colon)), c) := by
  rw [← peek_one, ← peek_two]
  rfl

/-- The tokens at hand are of one kind, unless a newline stands before one that closes. -/
theorem kind_of_loose {b : Bool} {c c' : Cursor} (h : Loose b c.tokens c'.tokens) :
    c.current.kind = c'.current.kind ∧ Spaced b c.tokens c'.tokens ∨
      c.current.kind.closes = true ∧ c'.current.kind = .newline := by
  obtain h | h := h
  · exact .inl ⟨Token.kind_eq_of_face h.head, h⟩
  · exact .inr ⟨h.closing, h.newline⟩

theorem isLabelStart_loose {b : Bool} {c c' : Cursor} (h : Loose b c.tokens c'.tokens) :
    ∃ yes, isLabelStart c = .ok (yes, c) ∧ isLabelStart c' = .ok (yes, c') ∧
      (yes = true → isLabelKind c.current.kind = true) := by
  obtain ⟨hkind, hs⟩ | ⟨hcloses, hnewline⟩ := kind_of_loose h
  case inr =>
    have hno' : isLabelKind c'.current.kind = false := by rw [hnewline]; rfl
    exact ⟨false, isLabelStart_of_not (isLabelKind_of_closes hcloses),
      isLabelStart_of_not hno', nofun⟩
  rw [isLabelStart_eq, isLabelStart_eq, ← hkind]
  cases hlabel : isLabelKind c.current.kind with
  | false => exact ⟨false, rfl, rfl, nofun⟩
  | true =>
    refine ⟨_, rfl, ?_, fun _ => rfl⟩
    have hnext : Loose true c.next.tokens c'.next.tokens := past_label hlabel ▸ Cursor.past_next hs
    obtain ⟨hkind, hs⟩ | ⟨hcloses, hnewline⟩ := kind_of_loose hnext
    case inr =>
      rw [(colon_of_closes hcloses).1, (colon_of_closes hcloses).2, hnewline]
      rfl
    rw [← hkind]
    by_cases hquestion : c.next.current.kind = .question
    · have hnext : Loose false c.next.next.tokens c'.next.next.tokens := by
        have hpast := Cursor.past_next hs
        rwa [hquestion] at hpast
      obtain ⟨hkind, -⟩ | ⟨hcloses, hnewline⟩ := kind_of_loose hnext
      · rw [hkind]
      · rw [(colon_of_closes hcloses).1, hnewline]
        rfl
    · rw [beq_false_of_ne hquestion, Bool.false_and, Bool.false_and]

theorem follows_isLabelStart (hP : ∀ ts us, P ts us → Loose true ts us) :
    Follows even P (fun yes ts us => P ts us ∧ (yes = true → Heads (isLabelKind · = true) ts))
      isLabelStart isLabelStart := by
  intro c c' yes d hc hdeep hrun
  obtain ⟨yes, hyes, hyes', hlabel⟩ := isLabelStart_loose (hP _ _ hc)
  rw [hyes] at hrun
  cases hrun
  exact .inl ⟨c', hyes', ⟨hc, hlabel⟩, hdeep⟩

theorem follows_isPatternStart (hP : ∀ ts us, P ts us → Loose true ts us) :
    Follows even P (fun _ => P) isPatternStart isPatternStart := by
  intro c c' yes d hc hdeep hrun
  cases hrun
  refine .inl ⟨c', ?_, hc, hdeep⟩
  show Except.ok (c'.current.kind == .openBracket && closesBeforeColon 0 c'.tokens, c') =
    .ok (c.current.kind == .openBracket && closesBeforeColon 0 c.tokens, c')
  obtain ⟨hkind, hs⟩ | ⟨hcloses, hnewline⟩ := kind_of_loose (hP _ _ hc)
  · rw [hkind, closesBeforeColon_spaced hs]
  · have hno : (c.current.kind == .openBracket) = false := by
      cases hk : c.current.kind <;> first | rfl | (rw [hk] at hcloses; cases hcloses)
    rw [hno, hnewline]
    rfl

theorem follows_labelOf {t u : Token} (h : t.face = u.face) :
    Follows even P (fun _ => P) (labelOf t) (labelOf u) := by
  unfold labelOf
  rw [← Token.kind_eq_of_face h, ← Token.text_eq_of_face h]
  split
  · exact .map _ (.ofToken _)
  · exact .pure fun _ _ => id

theorem follows_field (h : lv.Follows even lv') :
    Follows even (fun ts us => Spaced false ts us ∧ Heads (isLabelKind · = true) ts)
      (fun _ => Loose true) (field lv) (field lv') := by
  unfold field
  refine .of_heads fun k hk => .advance fun t u htu => ?_
  rw [past_label hk]
  refine .bind (follows_labelOf htu) fun label => .bind (.eat_loose rfl rfl fun _ _ => Loose.weaken)
    fun optional => ?_
  refine .of_refuses (.bind (.expect Bool.false_ne_true) _) (.expect fun _ _ _ => ?_)
  refine .bind (follows_isLabelStart fun _ _ => Loose.weaken) fun _ => ?_
  refine .bind (follows_isPatternStart fun _ _ hc => Loose.weaken hc.1) fun _ => ?_
  split
  · exact .bind (.pre (.of_refuses h.refusesDecl h.decl) fun _ _ hc => hc.1)
      fun d => .pure fun _ _ => id
  · exact .bind (.pre (follows_expr_loose h) fun _ _ hc => hc.1) fun x => .pure fun _ _ => id

theorem follows_declBody (h : lv.Follows even lv') :
    Follows even (Spaced false) (fun _ => Loose true) (declBody lv) (declBody lv') := by
  unfold declBody
  refine .current fun t u htu => ?_
  rw [← Token.kind_eq_of_face htu]
  generalize t.kind = k
  split
  · exact .advance fun _ _ _ => .pure fun _ _ => Loose.weaken
  · refine .advance fun _ _ _ => .bind .skipNewlines fun _ => .bind (follows_expr h) fun label => ?_
    refine .bind (.pre .skipNewlines fun _ _ => Loose.ahead) fun _ => .expect fun _ _ _ => ?_
    refine .of_refuses (.bind (.expect Bool.false_ne_true) _) (.expect fun _ _ _ => ?_)
    exact .bind (follows_expr_loose h) fun x => .pure fun _ _ => id
  · refine .bind (follows_isLabelStart fun _ _ hc => .inl hc.1.weaken) fun starts => ?_
    cases starts with
    | true => exact (follows_field h).pre fun _ _ hc => ⟨hc.1.1, hc.2 rfl⟩
    | false => exact .bind ((follows_expr h).pre fun _ _ hc => hc.1.1) fun x => .pure fun _ _ => id

theorem follows_decls (h : lv.Follows even lv') {stop : TokenKind} (hstop : stop.closes = false) :
    Follows even Fresh (fun _ => Spaced true) (decls lv stop) (decls lv' stop) := by
  unfold decls
  refine .loop (fun _ _ => Fresh.length_le) (fun done => ?_) []
  refine .bind .skipSeparators fun _ => .bind .check fun stopped => ?_
  split
  · exact .pure fun _ _ => Spaced.weaken
  · refine .bind h.decl fun d => .current_loose (fun t u htu => ?_) fun t u ht hu => ?_
    · rw [← Token.kind_eq_of_face htu]
      dsimp only
      split
      case isTrue hkind =>
        exact .pure fun _ _ hc => .inr ⟨hc.1.ahead, hc.2.mono fun k hk => by simpa [hk] using hkind⟩
      case isFalse =>
        split
        · exact .pure fun _ _ hc => hc.1
        · exact .unexpected
    · dsimp only
      rw [hu]
      by_cases hcomma : t.kind = .comma
      · rw [if_pos (.inr hcomma), if_pos (.inl rfl)]
        exact .pure fun _ _ hc => .inr ⟨hc.1.ahead, hc.2.mono fun k hk => by simp [hk, hcomma]⟩
      · have hnewline : t.kind ≠ .newline := fun hk => by rw [hk] at ht; cases ht
        rw [if_neg (not_or.mpr ⟨hnewline, hcomma⟩), if_neg fun hk => by rw [hk, hstop] at ht; cases ht]
        exact .unexpected

/-! ## Operands -/

theorem follows_commaItem (h : lv.Follows even lv') (done : List Expr) :
    Follows even (Spaced false) (Turn.Leaves (Spaced false) fun _ => Spaced true)
      (commaItem lv done) (commaItem lv' done) := by
  unfold commaItem
  refine .bind (follows_expr h) fun x => .bind (.pre .skipNewlines fun _ _ => Loose.ahead)
    fun _ => ?_
  refine .bind .eat fun comma => ?_
  cases comma with
  | true => exact .bind .skipNewlines fun _ => .pure fun _ _ => id
  | false => exact .pure fun _ _ => id

theorem follows_arguments (h : lv.Follows even lv') :
    Follows even (Spaced false) (fun _ => Spaced true) (arguments lv) (arguments lv') := by
  unfold arguments
  refine .loop (fun _ _ => Spaced.length_le) (fun done => .bind .check fun closed => ?_) []
  split
  · exact .pure fun _ _ => Spaced.weaken
  · exact follows_commaItem h done

theorem follows_listTail (h : lv.Follows even lv') :
    Follows even (Loose false) (fun _ => Spaced true) (listTail lv) (listTail lv') := by
  have hrest (x : Expr) : Follows even (Ahead true) (fun _ => Spaced true) (do
      skipNewlines
      let _ ← eat .comma
      skipNewlines
      return x) (do
      skipNewlines
      let _ ← eat .comma
      skipNewlines
      return x) := by
    refine .bind .skipNewlines fun _ => .bind .eat fun comma => ?_
    refine .bind (.pre .skipNewlines ?_) fun _ => .pure fun _ _ => id
    cases comma with
    | true => exact fun _ _ => Ahead.weaken
    | false => exact fun _ _ => Spaced.ahead
  unfold listTail
  refine .current_loose (fun t u htu => ?_) fun t u ht hu => ?_
  · rw [← Token.kind_eq_of_face htu]
    dsimp only
    split
    · exact (hrest _).pre fun _ _ hc => hc.1.weaken.ahead
    · exact .bind ((follows_expr h).pre fun _ _ hc => hc.1) fun x =>
        (hrest x).pre fun _ _ => Loose.ahead
  · dsimp only
    have htop : TokenKind.newline = .closeBracket ∨ TokenKind.newline = .comma ∨
        TokenKind.newline = .newline :=
      .inr (.inr rfl)
    rw [hu, if_pos htop]
    split
    · exact (hrest _).pre fun _ _ hc => hc.1.ahead.weaken
    · exact .refused ((refuses_expr h.refusesUnary).bind _) fun _ _ hc => hc.1.closing

theorem follows_listItems (h : lv.Follows even lv') :
    Follows even (Spaced false) (fun _ => Spaced true) (listItems lv) (listItems lv') := by
  unfold listItems
  refine .loop (fun _ _ => Spaced.length_le) (fun done => .bind .check fun closed => ?_) []
  split
  · exact .pure fun _ _ => Spaced.weaken
  · refine .bind .eat fun ellipsis => ?_
    cases ellipsis with
    | true => exact .bind (follows_listTail h) fun tail => .pure fun _ _ => id
    | false =>
      refine .bind (follows_commaItem h done) fun turn => ?_
      cases turn with
      | again xs => exact .pure fun _ _ => id
      | done xs => exact .pure fun _ _ => id

theorem follows_primary (h : lv.Follows even lv') :
    Follows even (Spaced false) (fun _ => Loose true) (primary lv) (primary lv') := by
  have hconst {k : TokenKind} {x : Expr} (hk : Past false k = Loose true) :
      Follows even (Begins (Spaced false) k) (fun _ => Loose true) (do let _ ← advance; return x)
        (do let _ ← advance; return x) := .advance fun _ _ _ => .pure fun _ _ hc => hk ▸ hc
  unfold primary
  refine .current fun t u htu => ?_
  rw [← Token.kind_eq_of_face htu, ← Token.text_eq_of_face htu]
  generalize t.kind = k
  dsimp only
  split
  case h_10 =>
    refine .advance fun _ _ _ => .bind ((follows_decls h rfl).pre fun _ _ => Or.inl) fun ds => ?_
    exact .expect fun _ _ _ => .pure fun _ _ => id
  case h_11 =>
    refine .advance fun _ _ _ => .bind .skipNewlines fun _ =>
      .bind (follows_listItems h) fun items => ?_
    exact .expect fun _ _ _ => .pure fun _ _ => id
  case h_12 =>
    refine .advance fun _ _ _ => .bind .skipNewlines fun _ => .bind (follows_expr h) fun x => ?_
    exact .bind (.pre .skipNewlines fun _ _ => Loose.ahead) fun _ =>
      .expect fun _ _ _ => .pure fun _ _ => id
  case h_13 => exact .unexpected
  case h_1 | h_3 => exact .bind (.ofToken _) fun _ => hconst rfl
  all_goals exact hconst rfl

theorem follows_postfixTurn (h : lv.Follows even lv') (x : Expr) :
    Follows even (Loose true) (Turn.Leaves (Loose true) fun _ => Loose true)
      (postfixTurn lv x) (postfixTurn lv' x) := by
  unfold postfixTurn
  refine .current_loose (fun t u htu => ?_) fun t u ht hu => ?_
  · rw [← Token.kind_eq_of_face htu]
    generalize t.kind = k
    split
    · refine .bind .wrap fun _ => .advance fun _ _ _ => .current_loose (fun v w hvw => ?_)
        fun v w hv hw => ?_
      · rw [← Token.kind_eq_of_face hvw]
        split
        case isTrue hlabel =>
          refine .bind (follows_labelOf hvw) fun label => .advance fun _ _ _ =>
            .pure fun _ _ hc => ?_
          rwa [past_label hlabel] at hc
        case isFalse => exact .unexpected
      · rw [isLabelKind_of_closes hv]
        exact .unexpected
    · refine .bind .wrap fun _ => .advance fun _ _ _ => .bind .skipNewlines fun _ => ?_
      refine .bind (follows_expr h) fun position =>
        .bind (.pre .skipNewlines fun _ _ => Loose.ahead) fun _ => ?_
      exact .expect fun _ _ _ => .pure fun _ _ => id
    · refine .bind .wrap fun _ => .advance fun _ _ _ => .bind .skipNewlines fun _ => ?_
      exact .bind (follows_arguments h) fun args => .expect fun _ _ _ => .pure fun _ _ => id
    · exact .pure fun _ _ hc => .inl hc.1
  · rw [hu]
    generalize t.kind = k at ht
    split
    · cases ht
    · cases ht
    · cases ht
    · exact .pure fun _ _ hc => .inr hc.1

theorem follows_postfixChain (h : lv.Follows even lv') :
    Follows even (Spaced false) (fun _ => Loose true) (postfixChain lv) (postfixChain lv') := by
  unfold postfixChain
  exact .subtree h.depth (.bind (follows_primary h) (.loop (fun _ _ => Loose.length_le) (follows_postfixTurn h)))

theorem follows_unaryBody (h : lv.Follows even lv') :
    Follows even (Spaced false) (fun _ => Loose true) (unaryBody lv) (unaryBody lv') := by
  unfold unaryBody
  refine .current fun t u htu => ?_
  rw [← Token.kind_eq_of_face htu]
  split
  case h_1 apply happly =>
    refine .advance fun _ _ _ => ?_
    rw [past_prefixOp? happly]
    exact .bind (.of_refuses h.refusesUnary h.unary) fun x => .pure fun _ _ => id
  case h_2 => exact (follows_postfixChain h).pre fun _ _ hc => hc.1

/-! ## Levels -/

/-- The readers of a level follow those of any other, and at the same one without limits. -/
theorem follows_level (left left' : Nat) (h : even → left = left') :
    (level left).Follows even (level left') := by
  have hrefuses (n : Nat) : Refuses (·.closes = true) (level n).unary :=
    (refuses_unary n).mono fun _ => not_startsOperand
  have hrefusesDecl (n : Nat) : Refuses (·.closes = true) (level n).decl :=
    (refuses_decl n).mono fun _ hk => ⟨not_startsOperand hk, by rintro rfl; cases hk⟩
  induction left generalizing left' with
  | zero =>
    exact ⟨fun he => by rw [h he], .never fun _ _ => nofun, .never fun _ _ => nofun, hrefusesDecl 0, hrefuses 0⟩
  | succ left ih =>
    have hdepth (he : even) : (level (left + 1)).depth = (level left').depth := by rw [h he]
    cases left' with
    | zero =>
      have hlimit {α : Type} {Q : α → TokensRel} {r : Reader α} :
          Follows even (Spaced false) Q r (fail (.nestedDeeper maxNesting)) := fun _ c' _ _ _ _ _ =>
        .inr ⟨(fun he => nomatch h he), c'.current.span, maxNesting, rfl⟩
      exact ⟨hdepth, hlimit, hlimit, hrefusesDecl _, hrefuses _⟩
    | succ left' =>
      have hbelow := ih left' fun he => Nat.succ.inj (h he)
      refine ⟨hdepth, ?_, ?_, hrefusesDecl _, hrefuses _⟩
      · exact .bind (.reach hbelow.depth) fun _ => follows_declBody hbelow
      · exact .bind (.reach hbelow.depth) fun _ => follows_unaryBody hbelow

theorem follows_wholeExpr :
    Follows True (Ahead false) (fun _ => Loose false) wholeExpr wholeExpr := by
  have h := follows_level maxNesting maxNesting fun _ : True => rfl
  unfold wholeExpr
  refine .bind .skipNewlines fun _ => .bind (follows_expr h) fun x => ?_
  exact .bind (.pre .skipNewlines fun _ _ => Loose.ahead) fun _ =>
    .expect fun _ _ _ => .pure fun _ _ => id

theorem tokens_ofTokens {ts : List Token} (h : ts ≠ []) : (Cursor.ofTokens ts).tokens = ts := by
  obtain ⟨t, ts, rfl⟩ := List.exists_cons_of_ne_nil h
  rfl

end Parser

/-- Newlines that do not count make no difference to an expression. -/
theorem Expr.parse_of_spaced {s s' : String} {ts us : List Token} {x : Expr}
    (hs : Token.tokenize s = .ok ts) (hs' : Token.tokenize s' = .ok us)
    (hspaced : Spaced false ts us) (hx : Expr.parse s = .ok x) :
    Expr.parse s' = .ok x := by
  obtain ⟨ts', d, hts, hread⟩ := Parser.run_eq_ok_iff.mp hx
  cases hs.symm.trans hts
  have hstart : Ahead false (Cursor.ofTokens ts).tokens (Cursor.ofTokens us).tokens := by
    rw [Parser.tokens_ofTokens hspaced.ne_nil, Parser.tokens_ofTokens hspaced.ne_nil_right]
    exact hspaced.ahead
  have hdeep : (Cursor.ofTokens ts).deepest = (Cursor.ofTokens us).deepest := by
    cases ts <;> cases us <;> rfl
  obtain ⟨d', hread', -⟩ | ⟨heven, -⟩ := Parser.follows_wholeExpr hstart (fun _ => hdeep) hread
  · exact Parser.run_eq_ok_iff.mpr ⟨us, d', hs', hread'⟩
  · exact absurd trivial heven

example : Expr.readsAs "f(\nx &\n1\n, [\n2,\n])"
    (.call (.ident "f") [.binary .unify (.ident "x") (.int 1), .list [.int 2] none]) = true := by decide +kernel

example : (Expr.parse "(a + b)").isOk = true ∧ (Expr.parse "(a\n+ b)").isOk = false := by
  decide +kernel

end SchemaMock
