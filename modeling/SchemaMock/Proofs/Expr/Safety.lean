import SchemaMock.Fault
import SchemaMock.Proofs.Expr.Bounds

/-! # No reading goes astray

Whatever the source, reading it gives a tree or a fault of the text, at a piece of the text. No
token is asked for beyond the last, no slice goes beyond the bytes that are there or cuts a
character, no count goes below zero, and every turn of a loop that is not the last consumes a token:
the walks, which check all this at every step, do what the readers do. One lemma for each reader of
the grammar compares it with its walk, and the levels are compared by induction.
-/

namespace SchemaMock

namespace Walk

open Reader (Turn)
open SchemaMock.Parser (binaryOp? prefixOp? isLabelKind)

variable {g : Ground} {c : Cursor} {s : Place} {P : Known} {i : Nat}
  {lv : Parser.Level} {lv' : Level}

/-! ## Kinds of tokens -/

theorem ne_eof_of_binaryOp? {k : TokenKind} {op : BinaryOp} (h : binaryOp? k = some op) :
    k ≠ .eof := by
  rintro rfl
  cases h

theorem ne_eof_of_prefixOp? {k : TokenKind} {apply : Expr → Expr} (h : prefixOp? k = some apply) :
    k ≠ .eof := by
  rintro rfl
  cases h

theorem ne_eof_of_isLabelKind {k : TokenKind} (h : isLabelKind k = true) : k ≠ .eof := by
  rintro rfl
  cases h

/-! ## Looking ahead -/

/-- The token after one that stands some places ahead; the last one stands for all that would follow
it. -/
theorem peek_of_drop {t : Token} {ts : List Token} {n : Nat} (h : c.tokens.drop n = t :: ts) :
    c.peek (n + 1) = ts.headD t := by
  have hget : (c.current :: c.later)[n + 1]? = ts.head? := by
    show c.tokens[n + 1]? = _
    rw [← List.getElem?_drop, h]
    exact List.getElem?_cons_succ.trans List.head?_eq_getElem?.symm
  unfold Cursor.peek
  rw [hget]
  cases ts with
  | cons u us => rfl
  | nil =>
    have hlast : c.tokens.getLast? = some t := by
      have hdrop := congrArg List.getLast? h
      rw [List.getLast?_drop] at hdrop
      split at hdrop
      · cases hdrop
      · exact hdrop
    rw [Cursor.tokens, List.getLast?_cons] at hlast
    rw [List.getLastD_eq_getLast?]
    exact Option.some.inj hlast

theorem agrees_isLabelStart :
    Agrees g P Parser.isLabelStart isLabelStart fun yes n k => P n k ∧
    (yes = true → isLabelKind k = true) := by
  intro c s hc hp
  rw [isLabelStart, bind_of_ok _ (peek_eq hc 0), bind_of_ok _ (peek_eq hc 1),
    bind_of_ok _ (peek_eq hc 2)]
  exact .ok hc ⟨hp, fun h => (Bool.and_eq_true_iff.mp h).1⟩

theorem closesBeforeColon_of_ne {t : Token} {ts : List Token} {nested offset : Nat}
    (hopen : t.kind ≠ .openBracket) (hclose : t.kind ≠ .closeBracket) (heof : t.kind ≠ .eof) :
    closesBeforeColon nested offset (t :: ts) = closesBeforeColon nested (offset + 1) ts := by
  rw [closesBeforeColon]
  split <;> first | contradiction | rfl

/-- A bracket is open, or the first token opens one, so that the count does not go below zero. -/
theorem closesBeforeColon_eq (hc : Stands g s c) {ts : List Token} {nested offset : Nat}
    (hdrop : c.tokens.drop offset = ts) (hopen : nested ≠ 0 ∨ ts.head?.map Token.kind = some .openBracket) :
    closesBeforeColon nested offset ts g s = .ok (Parser.closesBeforeColon nested ts, s) := by
  induction ts generalizing nested offset with
  | nil => rfl
  | cons t ts ih =>
    have hrest : c.tokens.drop (offset + 1) = ts := by rw [← List.drop_drop, hdrop]; rfl
    have hnested (hkind : t.kind ≠ .openBracket) : nested ≠ 0 :=
      hopen.resolve_right fun h => hkind (Option.some.inj h)
    rw [Parser.closesBeforeColon]
    split
    case h_1 hkind =>
      rw [closesBeforeColon, hkind]
      exact ih hrest (.inl (Nat.succ_ne_zero _))
    case h_2 hkind =>
      have hpos : nested ≠ 0 := hnested (hkind ▸ TokenKind.noConfusion)
      rw [closesBeforeColon, hkind]
      show (minus nested 1 >>= fun nested => _) g s = _
      rw [bind_of_ok _ (minus_of_le (Nat.one_le_iff_ne_zero.mpr hpos))]
      by_cases hone : nested ≤ 1
      · rw [if_pos hone, if_pos (by omega), bind_of_ok _ (peek_eq hc _), peek_of_drop hdrop]
        rfl
      · rw [if_neg hone, if_neg (by omega)]
        exact ih hrest (.inl (by omega))
    case h_3 hkind =>
      rw [closesBeforeColon, hkind]
      rfl
    case h_4 hopen hclose heof =>
      rw [closesBeforeColon_of_ne hopen hclose heof]
      exact ih hrest (.inl (hnested hopen))

theorem agrees_isPatternStart : Agrees g P Parser.isPatternStart isPatternStart fun _ => P := by
  intro c s hc hp
  have hahead : ahead g s = .ok (c.tokens, s) := by
    show (if s.index ≤ g.tokens.length then (do return (← read).tokens.drop s.index) else lapse
      (.token s.index) :
      Walk (List Token)) g s = _
    rw [if_pos (Nat.le_of_lt hc.lt), ← hc.tokens]
    rfl
  have hwalk : isPatternStart g s =
      .ok (c.current.kind == .openBracket && Parser.closesBeforeColon 0 c.tokens, s) := by
    rw [isPatternStart, bind_of_ok _ (check_eq hc _)]
    by_cases hkind : c.current.kind = .openBracket
    · have hhead : c.tokens.head?.map Token.kind = some .openBracket := congrArg some hkind
      rw [if_pos (beq_iff_eq.mpr hkind), bind_of_ok _ hahead,
        closesBeforeColon_eq hc List.drop_zero (.inr hhead), beq_iff_eq.mpr hkind, Bool.true_and]
    · rw [beq_false_of_ne hkind, Bool.false_and]
      rfl
  rw [hwalk]
  exact .ok hc hp

theorem agrees_labelOf {t : Token} (ht : t ∈ g.tokens) :
    Agrees g P (Parser.labelOf t) (labelOf t) fun _ => P := by
  unfold Parser.labelOf labelOf
  refine .text ht ?_
  rw [← bind_pure_comp]
  split
  case isTrue hkind => exact .bind (.unquote ht hkind) fun s => .pure fun _ _ => id
  case isFalse => exact .pure fun _ _ => id

/-! ## Operators -/

/-- The walks of a level do what its readers do, and consume a token. -/
structure Level.Alike (g : Ground) (lv : Parser.Level) (lv' : Level) : Prop where
  depth : lv.depth = lv'.depth
  decl : ∀ i, Agrees g (From i) lv.decl lv'.decl fun _ => From (i + 1)
  unary : ∀ i, Agrees g (From i) lv.unary lv'.unary fun _ => From (i + 1)

/-- As there are seven precedences, the rounds of a reader never run out. -/
theorem agrees_binary (h : lv'.Alike g lv) {rounds least : Nat} (hrounds : 9 ≤ rounds + least)
    (hleast : least ≤ 8) (i : Nat) :
    Agrees g (From i) (Parser.binary lv rounds least) (binary lv' least) fun _ => From (i + 1) := by
  induction rounds generalizing least i with
  | zero => omega
  | succ rounds ih =>
    rw [Parser.binary, binary, h.depth]
    refine .subtree (.bind (h.unary i) fun first => .loop (fun j lhs => .current fun t ht => ?_) first)
    cases hop : binaryOp? t.kind with
    | none => exact .pure fun _ _ hp => hp.1
    | some op =>
      dsimp only
      by_cases hprecedence : op.precedence < least
      · rw [if_pos hprecedence, dif_pos hprecedence]
        exact .pure fun _ _ hp => hp.1
      · rw [if_neg hprecedence, dif_neg hprecedence]
        have hle := precedence_le op
        refine .bind .wrap fun _ => .advance (ne_eof_of_binaryOp? hop) fun _ _ _ =>
          .bind .skipNewlines fun _ => ?_
        exact .bind (ih (by omega) (by omega) _) fun rhs => .pure fun _ _ => Nat.le_of_succ_le

theorem agrees_expr (h : lv'.Alike g lv) (i : Nat) :
    Agrees g (From i) (Parser.expr lv) (expr lv') fun _ => From (i + 1) :=
  agrees_binary h (by decide) (by decide) i

/-! ## Declarations -/

theorem agrees_field (h : lv'.Alike g lv) (i : Nat) :
    Agrees g (fun n k => i ≤ n ∧ isLabelKind k = true)
    (Parser.field lv) (field lv') fun _ => From (i + 1) := by
  unfold Parser.field field
  refine .of_kinds fun k hk => .advance (ne_eof_of_isLabelKind hk) fun t ht _ => ?_
  refine .bind (agrees_labelOf ht) fun label =>
    .bind (.eat_any TokenKind.noConfusion) fun optional => ?_
  refine .expect TokenKind.noConfusion fun _ _ _ => ?_
  refine .bind agrees_isLabelStart fun _ => .bind agrees_isPatternStart fun _ =>
    .pre ?_ fun _ _ => And.left
  split
  · exact .bind (h.decl _) fun d => .gives (by omega)
  · exact .bind (agrees_expr h _) fun x => .gives (by omega)

theorem agrees_declBody (h : lv'.Alike g lv) (i : Nat) :
    Agrees g (From i) (Parser.declBody lv) (declBody lv') fun _ => From (i + 1) := by
  unfold Parser.declBody declBody
  refine .current fun t ht => ?_
  generalize t.kind = k
  by_cases hellipsis : k = .ellipsis
  · subst hellipsis
    exact .advance TokenKind.noConfusion fun _ _ _ => .gives (Nat.le_refl _)
  by_cases hbracket : k = .openBracket
  · subst hbracket
    refine .advance TokenKind.noConfusion fun _ _ _ => .bind .skipNewlines fun _ => ?_
    refine .bind (agrees_expr h _) fun label => .bind .skipNewlines fun _ => ?_
    refine .expect TokenKind.noConfusion fun _ _ _ => .expect TokenKind.noConfusion fun _ _ _ => ?_
    exact .bind (agrees_expr h _) fun x => .gives (by omega)
  -- neither of the two matches comes to one of its tokens
  simp only
  refine .bind agrees_isLabelStart fun starts => ?_
  cases starts with
  | true => exact (agrees_field h i).pre fun _ _ hp => ⟨hp.1.1, hp.2 rfl⟩
  | false =>
    exact .pre (.bind (agrees_expr h i) fun x => .gives (Nat.le_refl _)) fun _ _ hp => hp.1.1

theorem agrees_decls (h : lv'.Alike g lv) (stop : TokenKind) (i : Nat) :
    Agrees g (From i) (Parser.decls lv stop) (decls lv' stop) fun _ => From i := by
  unfold Parser.decls decls
  refine .loop (fun j done => ?_) []
  refine .bind .skipSeparators fun _ => .bind .check fun stopped => ?_
  refine .pre ?_ fun _ _ => And.left
  split
  · exact .done (Nat.le_refl _)
  · refine .bind (h.decl _) fun d => .current fun t ht => .of_on ?_
    dsimp only
    split
    · exact .again (Nat.le_refl _)
    · split
      · exact .done (Nat.le_succ _)
      · exact .unexpected _

/-! ## Operands -/

theorem agrees_commaItem (h : lv'.Alike g lv) (done : List Expr) (i : Nat) :
    Agrees g (From i) (Parser.commaItem lv done) (commaItem lv' done) (Agrees.Leaves i) := by
  unfold Parser.commaItem commaItem
  refine .bind (agrees_expr h _) fun x => .bind .skipNewlines fun _ => ?_
  refine .bind (.eat_any TokenKind.noConfusion) fun comma => ?_
  split
  · exact .bind .skipNewlines fun _ => .again (Nat.le_refl _)
  · exact .done (Nat.le_succ _)

theorem agrees_arguments (h : lv'.Alike g lv) (i : Nat) :
    Agrees g (From i) (Parser.arguments lv) (arguments lv') fun _ => From i := by
  unfold Parser.arguments arguments
  refine .loop (fun j done => .bind .check fun closed => .pre ?_ fun _ _ => And.left) []
  split
  · exact .done (Nat.le_refl _)
  · exact agrees_commaItem h done j

theorem agrees_listTail (h : lv'.Alike g lv) (i : Nat) :
    Agrees g (From i) (Parser.listTail lv) (listTail lv') fun _ => From i := by
  have hrest (x : Expr) : Agrees g (From i) (do
      Reader.skipNewlines
      let _ ← Reader.eat .comma
      Reader.skipNewlines
      return x) (do
      skipNewlines
      let _ ← eat .comma
      skipNewlines
      return x) fun _ => From i := by
    refine .bind .skipNewlines fun _ => .bind (.eat_any TokenKind.noConfusion) fun _ => ?_
    exact .bind .skipNewlines fun _ => .gives (Nat.le_refl _)
  unfold Parser.listTail listTail
  refine .current fun t ht => .of_on ?_
  dsimp only
  split
  · exact hrest _
  · exact .bind ((agrees_expr h i).post fun _ _ _ => Nat.le_of_succ_le) fun x => hrest x

theorem agrees_listItems (h : lv'.Alike g lv) (i : Nat) :
    Agrees g (From i) (Parser.listItems lv) (listItems lv') fun _ => From i := by
  unfold Parser.listItems listItems
  refine .loop (fun j done => .bind .check fun closed => .pre ?_ fun _ _ => And.left) []
  split
  · exact .done (Nat.le_refl _)
  · refine .bind (.eat_any TokenKind.noConfusion) fun ellipsis => ?_
    split
    · exact .bind (agrees_listTail h _) fun tail => .done (Nat.le_refl _)
    · refine .bind (agrees_commaItem h done j) fun turn => ?_
      cases turn with
      | again xs => exact .again (Nat.le_refl _)
      | done xs => exact .done (Nat.le_refl _)

theorem agrees_primary (h : lv'.Alike g lv) (i : Nat) :
    Agrees g (From i) (Parser.primary lv) (primary lv') fun _ => From (i + 1) := by
  have hleaf {k : TokenKind} {x : Expr} (hk : k ≠ .eof) :
      Agrees g (On i k) (do let _ ← Reader.advance; return x)
      (do let _ ← advance; return x) fun _ => From (i + 1) :=
      .advance hk fun _ _ _ => .gives (Nat.le_refl _)
  unfold Parser.primary primary
  refine .current fun t ht => ?_
  dsimp only
  generalize hkind : t.kind = k
  split
  case h_1 =>
    exact .text ht (.bind (.ofToken ht (Literal.integer_ne_stalled _)) fun _ => hleaf TokenKind.noConfusion)
  case h_3 => exact .text ht (.bind (.unquote ht hkind) fun _ => hleaf TokenKind.noConfusion)
  case h_2 | h_8 | h_9 => exact .text ht (hleaf TokenKind.noConfusion)
  case h_10 =>
    refine .advance TokenKind.noConfusion fun _ _ _ => .bind (agrees_decls h _ _) fun ds => ?_
    exact .expect TokenKind.noConfusion fun _ _ _ => .gives (Nat.le_succ _)
  case h_11 =>
    refine .advance TokenKind.noConfusion fun _ _ _ => .bind .skipNewlines fun _ => ?_
    refine .bind (agrees_listItems h _) fun items => ?_
    exact .expect TokenKind.noConfusion fun _ _ _ => .gives (Nat.le_succ _)
  case h_12 =>
    refine .advance TokenKind.noConfusion fun _ _ _ => .bind .skipNewlines fun _ => ?_
    refine .bind (agrees_expr h _) fun x => .bind .skipNewlines fun _ => ?_
    exact .expect TokenKind.noConfusion fun _ _ _ => .gives (by omega)
  case h_13 =>
    try split
    all_goals first | contradiction | exact .unexpected _
  all_goals exact hleaf TokenKind.noConfusion

theorem agrees_postfixTurn (h : lv'.Alike g lv) (x : Expr) (i : Nat) :
    Agrees g (From i) (Parser.postfixTurn lv x) (postfixTurn lv' x) (Agrees.Leaves i) := by
  unfold Parser.postfixTurn postfixTurn
  refine .current fun t ht => ?_
  generalize t.kind = k
  split
  · refine .bind .wrap fun _ => .advance TokenKind.noConfusion fun _ _ _ => .current fun u hu => ?_
    split
    case isTrue hlabel =>
      refine .bind (agrees_labelOf hu) fun label =>
        .advance (ne_eof_of_isLabelKind hlabel) fun _ _ _ => ?_
      exact .again (Nat.le_succ _)
    case isFalse => exact .unexpected _
  · refine .bind .wrap fun _ => .advance TokenKind.noConfusion fun _ _ _ =>
      .bind .skipNewlines fun _ => ?_
    refine .bind (agrees_expr h _) fun position => .bind .skipNewlines fun _ => ?_
    exact .expect TokenKind.noConfusion fun _ _ _ => .again (by omega)
  · refine .bind .wrap fun _ => .advance TokenKind.noConfusion fun _ _ _ =>
      .bind .skipNewlines fun _ => ?_
    refine .bind (agrees_arguments h _) fun args => ?_
    exact .expect TokenKind.noConfusion fun _ _ _ => .again (Nat.le_succ _)
  case h_4 =>
    try split
    all_goals first | contradiction | exact .of_on (.done (Nat.le_refl _))

theorem agrees_postfixChain (h : lv'.Alike g lv) (i : Nat) :
    Agrees g (From i) (Parser.postfixChain lv) (postfixChain lv') fun _ => From (i + 1) := by
  unfold Parser.postfixChain postfixChain
  rw [h.depth]
  exact .subtree (.bind (agrees_primary h i) (.loop fun j x => agrees_postfixTurn h x j))

theorem agrees_unaryBody (h : lv'.Alike g lv) (i : Nat) :
    Agrees g (From i) (Parser.unaryBody lv) (unaryBody lv') fun _ => From (i + 1) := by
  unfold Parser.unaryBody unaryBody
  refine .current fun t ht => ?_
  cases hprefix : prefixOp? t.kind with
  | some apply =>
    refine .advance (ne_eof_of_prefixOp? hprefix) fun _ _ _ => ?_
    exact .bind (h.unary _) fun x => .gives (Nat.le_succ _)
  | none => exact .of_on (agrees_postfixChain h i)

/-! ## Levels -/

theorem alike_level (left : Nat) : (level left).Alike g (Parser.level left) := by
  have hlimit {α : Type} {Q : α → Known} (i : Nat) :
      Agrees g (From i) (Reader.fail (.nestedDeeper maxNesting))
        (fail (.nestedDeeper maxNesting)) Q :=
    .fail _ SourceFault.noConfusion
  induction left with
  | zero => exact ⟨rfl, fun i => hlimit i, fun i => hlimit i⟩
  | succ left ih =>
    have hreach : (Parser.level left).depth = (level left).depth := ih.depth
    refine ⟨rfl, fun i => ?_, fun i => ?_⟩
    · exact .bind (hreach ▸ .reach _) fun _ => agrees_declBody ih i
    · exact .bind (hreach ▸ .reach _) fun _ => agrees_unaryBody ih i

/-! ## Texts -/

theorem agrees_importClause (i : Nat) :
    Agrees g (From i) Parser.importClause importClause fun _ => From i := by
  have hname {α : Type} {f : String → Reader α} {f' : String → Walk α} {j : Nat} {R : α → Known}
      (h : ∀ name, Agrees g (From (j + 1)) (f name) (f' name) R) : Agrees g (From j) (do
        let token ← Reader.expect .string
        f (← Reader.ofToken token (Literal.unquote token.text))) (importName >>= f') R := by
    unfold importName
    simp only [bind_assoc]
    refine .expect TokenKind.noConfusion fun t ht hkind => .text ht ?_
    exact .bind (.unquote ht hkind) h
  unfold Parser.importClause importClause
  refine .bind (.eat_any TokenKind.noConfusion) fun parens => ?_
  split
  · refine .bind (.loop (fun j done => ?_) []) fun names => ?_
    · refine .bind .skipSeparators fun _ => .bind .check fun closed => .pre ?_ fun _ _ => And.left
      split
      · exact .done (Nat.le_refl _)
      · exact hname fun name => .again (Nat.le_refl _)
    · exact .expect TokenKind.noConfusion fun _ _ _ => .gives (Nat.le_succ _)
  · exact hname fun name => .gives (Nat.le_succ _)

theorem agrees_imports (i : Nat) : Agrees g (From i) Parser.imports imports fun _ => From i := by
  unfold Parser.imports imports
  refine .loop (fun j done => .bind (.eat TokenKind.noConfusion) fun yes => ?_) []
  cases yes with
  | true =>
    refine .bind (agrees_importClause _) fun names => .bind .skipSeparators fun _ => ?_
    exact .again (Nat.le_refl _)
  | false => exact .done (Nat.le_refl _)

theorem agrees_packageClause (i : Nat) :
    Agrees g (From i) Parser.packageClause packageClause fun _ => From i := by
  unfold Parser.packageClause packageClause
  refine .bind (.eat_any TokenKind.noConfusion) fun yes => ?_
  cases yes with
  | true =>
    refine .expect TokenKind.noConfusion fun t ht _ => .text ht ?_
    exact .bind .skipSeparators fun _ => .gives (Nat.le_succ _)
  | false => exact .gives (Nat.le_refl _)

theorem agrees_file (i : Nat) : Agrees g (From i) Parser.file file fun _ => From i := by
  unfold Parser.file file
  refine .bind .skipSeparators fun _ => .bind (agrees_packageClause _) fun name => ?_
  refine .bind (agrees_imports _) fun imports => ?_
  exact .bind (agrees_decls (alike_level _) _ _) fun ds => .gives (Nat.le_refl _)

theorem agrees_wholeExpr (i : Nat) :
    Agrees g (From i) Parser.wholeExpr wholeExpr fun _ => From i := by
  unfold Parser.wholeExpr wholeExpr
  refine .bind .skipNewlines fun _ => .bind (agrees_expr (alike_level _) _) fun x =>
    .bind .skipNewlines fun _ => ?_
  exact .bind .expect_any fun _ => .gives (Nat.le_succ _)

end Walk

/-- A source is read cleanly if the walk over it gives what is read, so that it does not lapse, and
a fault is one of the text, at a piece of it. -/
structure Clean {α : Type} (source : String) (walked : Except Stop α)
    (read : Except Malformed α) : Prop where
  checked : walked = read.mapError .fault
  placed : ∀ m, read = .error m →
    m.span.Within source ∧ m.fault ≠ .stalled ∧ (Cause.malformed m).kind = .malformed

theorem Clean.of_agrees {α : Type} {r : Reader α} {w : Walk α} {Q : α → Walk.Known}
    (h : ∀ g, Walk.Agrees g (Walk.From 0) r w Q) (source : String) :
    Clean source (Walk.run w source) (Parser.run r source) := by
  unfold Walk.run Parser.run
  cases htokens : Token.tokenize source with
  | error m =>
    refine ⟨rfl, fun m' hm => ?_⟩
    cases hm
    obtain ⟨hwithin, text, hfault⟩ := Token.within_of_tokenize_error htokens
    exact ⟨hwithin, hfault ▸ SourceFault.noConfusion, rfl⟩
  | ok tokens =>
    have hm := h ⟨source, tokens⟩ (.start (Ground.sound_of_tokenize htokens)) (Nat.zero_le _)
    show Clean source (w ⟨source, tokens⟩ ⟨0, 0⟩ >>= fun p => pure p.1)
      (r (Cursor.ofTokens tokens) >>= fun p => pure p.1)
    revert hm
    generalize r (Cursor.ofTokens tokens) = x
    generalize w ⟨source, tokens⟩ ⟨0, 0⟩ = y
    intro hm
    cases hm with
    | ok => exact ⟨rfl, nofun⟩
    | fault hwithin hfault =>
      refine ⟨rfl, fun m hm => ?_⟩
      cases hm
      exact ⟨hwithin, hfault, rfl⟩

/-- Every source is read cleanly, as an expression and as a file. -/
theorem parse_clean (source : String) :
    Clean source (Walk.run Walk.wholeExpr source) (Expr.parse source) ∧
      Clean source (Walk.run Walk.file source) (SchemaFile.parse source) :=
  ⟨.of_agrees (fun _ => Walk.agrees_wholeExpr 0) source,
  .of_agrees (fun _ => Walk.agrees_file 0) source⟩

end SchemaMock
