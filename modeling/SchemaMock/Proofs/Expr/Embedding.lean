import SchemaMock.Proofs.Expr.Comparison
import SchemaMock.Proofs.Expr.Room
import SchemaMock.Proofs.Token.Names

/-! # Expressions as declarations

An expression by itself is a file that embeds it. It then stands one level down, as the value of a
field does, and only the limits on nesting may refuse it there.
-/

namespace SchemaMock

namespace Token

theorem cuts_field {cs : List Char} {faces : List Face} (h : Cuts cs faces) :
    Cuts ('v' :: ':' :: ' ' :: cs) ((.ident, ['v']) :: (.colon, [':']) :: faces) := by
  have hcolon : Cuts (':' :: ' ' :: cs) ((.colon, [':']) :: faces) := .token rfl (cuts_blank h)
  exact cuts_name ⟨'v', [], rfl, List.forall_mem_nil _, rfl, by decide⟩
    (fun c hc => by cases hc; decide) hcolon

end Token

namespace Parser

open Reader

variable {α β : Type} {lv : Level}

/-! ## Where an expression ends -/

def marksField (k : TokenKind) : Prop := k = .colon ∨ k = .question

/-- With such tokens to come, the reader goes no further than what marks a field. -/
def StopsAtMark (P : List Token → Prop) (r : Reader α) : Prop :=
  ∀ c a d, P c.tokens → r c = .ok (a, d) → marksField d.current.kind

variable {P : List Token → Prop}

theorem StopsAtMark.bind {r : Reader α} {f : α → Reader β} (h : StopsAtMark P r)
    (hf : ∀ a c b d, marksField c.current.kind → f a c = .ok (b, d) → d.tokens = c.tokens) :
    StopsAtMark P (r >>= f) := by
  intro c b d hc hrun
  obtain ⟨a, s, hr, hfa⟩ := bind_eq_ok hrun
  have hs := h c a s hc hr
  rwa [(List.cons.inj (hf a s b d hs hfa)).1]

theorem StopsAtMark.subtree {r : Reader α} (h : StopsAtMark P r) (depth : Nat) :
    StopsAtMark P (subtree depth r) := by
  intro c a d hc hrun
  obtain ⟨s, hr, rfl⟩ := subtree_eq_ok hrun
  exact h { c with deepest := depth } a s hc hr

theorem StopsAtMark.reach {f : Unit → Reader α} (h : StopsAtMark P (f ())) (depth : Nat) :
    StopsAtMark P (reach depth >>= f) := by
  intro c a d hc hrun
  obtain ⟨u, s, hr, hf⟩ := bind_eq_ok hrun
  obtain ⟨-, rfl⟩ := reach_eq_ok hr
  exact h { c with deepest := max c.deepest depth } a d hc hf

/-- A loop that stops there ends where it began. -/
theorem tokens_of_loop {turn : α → Reader (Turn α β)} {a : α} {b : β} {c d : Cursor}
    (hturn : turn a c = .ok (.done b, c)) {b' : β} (h : loop turn a c = .ok (b', d)) :
    d.tokens = c.tokens := by
  rw [loop_of_done hturn] at h
  cases h
  rfl

/-- What marks a field goes on with no operand. -/
theorem stopsAtMark_postfixChain (h : StopsAtMark P (primary lv)) :
    StopsAtMark P (postfixChain lv) := by
  refine .subtree (.bind h fun x c y d hmarks hrun => ?_) _
  refine tokens_of_loop (b := x) ?_ hrun
  unfold postfixTurn
  rw [current_bind]
  obtain hkind | hkind := hmarks <;> rw [hkind] <;> rfl

theorem stopsAtMark_unary (hoperand : ∀ ts, P ts → Heads (prefixOp? · = none) ts)
    (h : ∀ left, StopsAtMark P (primary (level left))) (left : Nat) :
    StopsAtMark P (level left).unary := by
  cases left with
  | zero => exact fun _ _ _ _ => nofun
  | succ left =>
    refine .reach (fun c x d hc hrun => ?_) _
    have hnone : prefixOp? c.current.kind = none := hoperand _ hc
    rw [unaryBody, current_bind, hnone] at hrun
    exact stopsAtMark_postfixChain (h left) c x d hc hrun

theorem stopsAtMark_expr (hoperand : ∀ ts, P ts → Heads (prefixOp? · = none) ts)
    (h : ∀ left, StopsAtMark P (primary (level left))) (left : Nat) :
    StopsAtMark P (expr (level left)) := by
  rw [expr, binary]
  refine .subtree (.bind (stopsAtMark_unary hoperand h left) fun x c y d hmarks hrun => ?_) _
  refine tokens_of_loop (b := x) ?_ hrun
  rw [current_bind]
  obtain hkind | hkind := hmarks <;> rw [hkind] <;> rfl

/-- A label, and what marks it as that of a field. -/
def Labelled : List Token → Prop
  | t :: u :: _ => isLabelKind t.kind = true ∧ marksField u.kind
  | _ => False

theorem prefixOp?_of_isLabelKind {k : TokenKind} (h : isLabelKind k = true) :
    prefixOp? k = none := by
  cases k <;> first | rfl | cases h

theorem stopsAtMark_label (left : Nat) : StopsAtMark Labelled (expr (level left)) := by
  refine stopsAtMark_expr (fun ts hts => ?_) (fun left c a d hc hrun => ?_) left
  · match ts, hts with
    | t :: _ :: _, hts => exact prefixOp?_of_isLabelKind hts.1
  obtain ⟨t, ts, n⟩ := c
  match ts, hc with
  | u :: us, ⟨hlabel, hmarks⟩ =>
    suffices hnext : d = ⟨u, us, n⟩ by rwa [hnext]
    unfold primary at hrun
    rw [current_bind] at hrun
    cases hkind : t.kind <;> rw [hkind] at hlabel <;> cases hlabel
    case ident =>
      rw [show (Cursor.mk t (u :: us) n).current.kind = .ident from hkind] at hrun
      cases hrun
      rfl
    case definition =>
      rw [show (Cursor.mk t (u :: us) n).current.kind = .definition from hkind] at hrun
      cases hrun
      rfl
    case string =>
      rw [show (Cursor.mk t (u :: us) n).current.kind = .string from hkind] at hrun
      obtain ⟨s, c', hs, hrun⟩ := bind_eq_ok hrun
      unfold ofToken at hs
      split at hs <;> cases hs
      cases hrun
      rfl

/-! ## A file of one declaration -/

def Ended (ts : List Token) : Prop := Heads (· = .eof) (dropFirst (· == .newline) ts)

theorem Ended.past_separators {ts : List Token} (h : Ended ts) :
    Heads (· = .eof) (dropFirst (fun k => k == .newline || k == .comma) ts) := by
  unfold Ended at h
  fun_induction dropFirst (· == .newline) ts
  case case1 t u us hnewline ih =>
    rw [dropFirst, hnewline]
    exact ih h
  case case2 t u us hnewline =>
    replace h : t.kind = .eof := h
    rw [dropFirst, h]
    exact h
  case case3 ts hts =>
    cases ts with
    | nil => exact h
    | cons t ts =>
      cases ts with
      | nil => exact h
      | cons u us => exact (hts t u us rfl).elim

/-- An end that follows newlines is followed by newlines in a list that is spaced out. -/
theorem Ended.of_loose {b : Bool} {ts us : List Token} (h : Ended ts) (hloose : Loose b ts us) :
    Ended us :=
  (hloose.ahead.drop rfl fun _ => TokenKind.endsOperand_of_newline).1.heads h

/-- What separates a declaration from the next, or ends the declarations. -/
def separated (stop : TokenKind) (done : List Decl) (d : Decl) :
    Reader (Turn (List Decl) (List Decl)) := do
  let kind := (← current).kind
  if kind = .newline ∨ kind = .comma then return .again (d :: done)
  else if kind = stop then return .done (d :: done).reverse
  else unexpected (.separatorOr stop)

def declaration (lv : Level) (stop : TokenKind) (done : List Decl) :
    Reader (Turn (List Decl) (List Decl)) := do
  skipSeparators
  if ← check stop then return .done done.reverse
  separated stop done (← lv.decl)

theorem decls_eq (lv : Level) (stop : TokenKind) : decls lv stop = loop (declaration lv stop) [] :=
  rfl

variable {c d : Cursor} {x : Decl}

theorem kind_ne_of_start {k : TokenKind} (h : c.current.kind.startsOperand = true)
    (hk : k.startsOperand = false) : c.current.kind ≠ k := fun he => by
  rw [he, hk] at h
  cases h

theorem skipSeparators_of_start (h : c.current.kind.startsOperand = true) :
    skipSeparators c = .ok ((), c) := by
  have hno : (c.current.kind == .newline || c.current.kind == .comma) = false :=
    Bool.or_eq_false_iff.mpr ⟨beq_false_of_ne (kind_ne_of_start h rfl),
      beq_false_of_ne (kind_ne_of_start h rfl)⟩
  exact congrArg (fun s => Except.ok ((), s)) (Cursor.skip_of_not hno)

theorem declaration_eq {stop : TokenKind} (h : c.current.kind.startsOperand = true)
    (hstop : stop.startsOperand = false) (done : List Decl) :
    declaration lv stop done c = (lv.decl >>= separated stop done) c := by
  rw [declaration, bind_of_ok _ (skipSeparators_of_start h),
    bind_of_ok _ (check_of_ne (kind_ne_of_start h hstop))]
  rfl

theorem decls_of_decl (h : c.current.kind.startsOperand = true) (hlater : c.later ≠ [])
    (hdecl : lv.decl c = .ok (x, d)) (hend : Ended d.tokens) :
    ∃ s, decls lv .eof c = .ok ([x], s) := by
  obtain ⟨n, hn⟩ := Nat.exists_eq_succ_of_ne_zero (mt List.length_eq_zero_iff.mp hlater)
  rw [decls_eq, loop, hn]
  by_cases hnewline : d.current.kind = .newline
  · have hagain : declaration lv .eof [] c = .ok (.again [x], d) := by
      rw [declaration_eq h rfl, bind_of_ok _ hdecl, separated, current_bind]
      rw [if_pos (show d.current.kind = .newline ∨ d.current.kind = .comma from .inl hnewline)]
      rfl
    have hdone : declaration lv .eof [x] d =
        .ok (.done [x], d.skip fun k => k == .newline || k == .comma) := by
      have hkind := hend.past_separators
      rw [← Cursor.tokens_skip] at hkind
      replace hkind : (d.skip fun k => k == .newline || k == .comma).current.kind = .eof := hkind
      rw [declaration, bind_of_ok (a := ()) _ rfl, bind_of_ok _ (check_of_kind hkind)]
      rfl
    exact ⟨_, (loop_go_again hagain).trans (loop_go_done hdone)⟩
  · have hkind : d.current.kind = .eof := by
      have hsame : dropFirst (· == .newline) d.tokens = d.tokens := by
        have hno : (d.current.kind == .newline) = false := beq_eq_false_iff_ne.mpr hnewline
        rw [← Cursor.tokens_skip]
        exact congrArg Cursor.tokens (Cursor.skip_of_not hno)
      unfold Ended at hend
      rw [hsame] at hend
      exact hend
    have hdone : declaration lv .eof [] c = .ok (.done [x], d) := by
      rw [declaration_eq h rfl, bind_of_ok _ hdecl, separated, current_bind, hkind]
      rfl
    exact ⟨_, loop_go_done hdone⟩

theorem decls_of_error {m : Malformed} {stop : TokenKind} (h : c.current.kind.startsOperand = true)
    (hstop : stop.startsOperand = false) (hdecl : lv.decl c = .error m) :
    decls lv stop c = .error m := by
  rw [decls_eq, loop]
  refine bind_of_error _ ?_
  rw [declaration_eq h hstop, bind_of_error _ hdecl]

theorem file_eq (h : c.current.kind.startsOperand = true) :
    file c = (decls outermost .eof >>= fun ds => pure ⟨none, [], ds⟩) c := by
  have hpackage : packageClause c = .ok (none, c) := by
    rw [packageClause, bind_of_ok _ (eat_of_ne (kind_ne_of_start h rfl))]
    rfl
  have himports : imports c = .ok ([], c) := by
    refine loop_of_done ?_
    rw [bind_of_ok _ (eat_of_ne (kind_ne_of_start h rfl))]
    rfl
  rw [file, bind_of_ok _ (skipSeparators_of_start h), bind_of_ok _ hpackage, bind_of_ok _ himports]

/-! ## The one declaration -/

/-- A declaration of a file stands one level below it. -/
theorem decl_outermost {c : Cursor} (h : c.deepest = 0) :
    outermost.decl c = declBody (level 63) { c with deepest := 1 } := by
  have hreach : reach 1 c = .ok ((), { c with deepest := 1 }) := by
    rw [reach_of_le (by decide), h]
    rfl
  exact bind_of_ok _ hreach

theorem declBody_embed (hstart : c.current.kind.startsOperand = true)
    (hbracket : c.current.kind ≠ .openBracket) (hlabel : isLabelStart c = .ok (false, c)) :
    declBody lv c = (expr lv >>= fun x => pure (.embed x)) c := by
  have hother : declBody lv c = (isLabelStart >>= fun starts =>
      if starts then field lv else expr lv >>= fun x => pure (.embed x)) c := by
    rw [declBody, current_bind]
    cases hk : c.current.kind <;> first | rfl | exact absurd hk hbracket | (rw [hk] at hstart; cases hstart)
  rw [hother, bind_of_ok _ hlabel]
  rfl

theorem declBody_field {f : Face} {fs : List Face}
    (hc : c.faces = (.ident, ['v']) :: (.colon, [':']) :: f :: fs) (hbracket : f.1 ≠ .openBracket)
    (hlabel : isLabelStart c.next.next = .ok (false, c.next.next)) :
    declBody lv c = (expr lv >>= fun x => pure (.field (.regular "v") false x)) c.next.next := by
  have hnext := Cursor.faces_next hc
  have hkind : c.current.kind = .ident := Cursor.kind_of_faces hc
  have hcolon : c.next.current.kind = .colon := Cursor.kind_of_faces hnext
  have hstarts : isLabelStart c = .ok (true, c) := by
    rw [isLabelStart_eq, hkind, hcolon]
    rfl
  have hname : labelOf c.current c.next = .ok (.regular "v", c.next) := by
    rw [labelOf, if_neg (by rw [hkind]; decide), Cursor.text_of_faces hc]
    rfl
  have hquestion : eat .question c.next = .ok (false, c.next) := eat_of_ne (by rw [hcolon]; decide)
  have hpattern : isPatternStart c.next.next = .ok (false, c.next.next) := by
    have hno : (c.next.next.current.kind == .openBracket) = false := by
      rw [Cursor.kind_of_faces (Cursor.faces_next hnext)]
      exact beq_eq_false_iff_ne.mpr hbracket
    rw [isPatternStart, hno]
    rfl
  rw [declBody, current_bind, hkind]
  dsimp only
  rw [bind_of_ok _ hstarts, if_pos rfl, field, advance_bind, bind_of_ok _ hname,
    bind_of_ok _ hquestion, bind_of_ok _ (expect_of_kind hcolon), bind_of_ok _ hlabel,
    bind_of_ok _ hpattern]
  rfl

/-- What is read from the top is read one level below it too, unless that is too deep. -/
theorem expr_below {c c' d : Cursor} {x : Expr} (h : Spaced false c.tokens c'.tokens)
    (hread : expr outermost c = .ok (x, d)) (hend : Ended d.tokens) :
    (∃ d', expr (level 63) c' = .ok (x, d') ∧ Ended d'.tokens) ∨ Limited (expr (level 63) c') := by
  have hlevel : Level.Follows False outermost (level 63) := follows_level maxNesting 63 False.elim
  exact (follows_expr hlevel h False.elim hread).imp
    (fun ⟨d', hread', hloose, _⟩ => ⟨d', hread', hend.of_loose hloose⟩) And.right

/-- At the same depth the same tokens are read alike. -/
theorem expr_alike {left : Nat} {c c' d : Cursor} {x : Expr} (h : Spaced false c.tokens c'.tokens)
    (hdeep : c.deepest = c'.deepest) (hread : expr (level left) c = .ok (x, d)) :
    ∃ d', expr (level left) c' = .ok (x, d') ∧ (Ended d.tokens → Ended d'.tokens) := by
  have hlevel : Level.Follows True (level left) (level left) := follows_level left left fun _ => rfl
  obtain ⟨d', hread', hloose, -⟩ | ⟨heven, -⟩ := follows_expr hlevel h (fun _ => hdeep) hread
  · exact ⟨d', hread', fun hend => hend.of_loose hloose⟩
  · exact absurd trivial heven

end Parser

open SchemaMock.Parser

variable {s : String} {ts : List Token} {x : Decl}

theorem later_ne_nil_of_tokenize (hts : Token.tokenize s = .ok ts)
    (hstart : (Cursor.ofTokens ts).current.kind.startsOperand = true) :
    (Cursor.ofTokens ts).later ≠ [] := by
  obtain ⟨us, t, rfl, ht⟩ := Token.last_of_tokenizeFrom hts
  match us with
  | [] =>
    replace hstart : t.kind.startsOperand = true := hstart
    rw [ht] at hstart
    cases hstart
  | u :: us => exact List.append_ne_nil_of_right_ne_nil us (List.cons_ne_nil t [])

theorem SchemaFile.parse_of_decl {d : Cursor} (hts : Token.tokenize s = .ok ts)
    (hstart : (Cursor.ofTokens ts).current.kind.startsOperand = true)
    (hdecl : outermost.decl (Cursor.ofTokens ts) = .ok (x, d)) (hend : Ended d.tokens) :
    SchemaFile.parse s = .ok ⟨none, [], [x]⟩ := by
  obtain ⟨e, hdecls⟩ := decls_of_decl hstart (later_ne_nil_of_tokenize hts hstart) hdecl hend
  refine run_eq_ok_iff.mpr ⟨ts, e, hts, ?_⟩
  rw [file_eq hstart, Reader.bind_of_ok _ hdecls]
  rfl

theorem SchemaFile.parse_of_decl_error {m : Malformed} (hts : Token.tokenize s = .ok ts)
    (hstart : (Cursor.ofTokens ts).current.kind.startsOperand = true)
    (hdecl : outermost.decl (Cursor.ofTokens ts) = .error m) : SchemaFile.parse s = .error m := by
  rw [SchemaFile.parse, run, hts]
  show (file (Cursor.ofTokens ts) >>= fun p => pure p.1) = .error m
  rw [file_eq hstart, Reader.bind_of_error _ (decls_of_error hstart rfl hdecl)]
  rfl

/-- A file whose only declaration is made of an expression is read where the expression is. -/
theorem SchemaFile.parse_of_level {c : Cursor} {x : Expr} {make : Expr → Decl}
    (hts : Token.tokenize s = .ok ts) (hstart : (Cursor.ofTokens ts).current.kind.startsOperand = true)
    (hdecl : outermost.decl (Cursor.ofTokens ts) = (expr (level 63) >>= fun x => pure (make x)) c)
    (h : (∃ d, expr (level 63) c = .ok (x, d) ∧ Ended d.tokens) ∨ Reader.Limited (expr (level 63) c)) :
    (SchemaFile.parse s = .ok ⟨none, [], [make x]⟩ ∨
      ∃ span limit, SchemaFile.parse s = .error ⟨span, .nestedDeeper limit⟩) ∧
    (SchemaFile.parse s = .ok ⟨none, [], [make x]⟩ ↔ ∃ d, expr (level 63) c = .ok (x, d)) := by
  obtain ⟨d, hread, hend⟩ | ⟨span, limit, hlimit⟩ := h
  · have hparse := parse_of_decl hts hstart (hdecl.trans (Reader.bind_of_ok _ hread)) hend
    exact ⟨.inl hparse, fun _ => ⟨d, hread⟩, fun _ => hparse⟩
  · have hparse := parse_of_decl_error hts hstart (hdecl.trans (Reader.bind_of_error _ hlimit))
    refine ⟨.inr ⟨span, limit, hparse⟩, fun h => ?_, fun ⟨d, h⟩ => ?_⟩
    · cases hparse.symm.trans h
    · cases hlimit.symm.trans h

/-- What marks a field is not passed over at the end of a text. -/
theorem Parser.not_marksField_of_ended {c : Cursor} (hend : Ended c.tokens) :
    ¬ marksField c.current.kind := by
  intro hmarks
  rw [Ended, ← Cursor.tokens_skip, Cursor.skip_of_not] at hend
  · replace hend : c.current.kind = .eof := hend
    obtain hkind | hkind := hmarks <;> rw [hkind] at hend <;> cases hend
  · obtain hkind | hkind := hmarks <;> rw [hkind] <;> rfl

/-- A text that holds an expression does not begin with the label of a field. -/
theorem Parser.isLabelStart_of_read {left : Nat} {c d : Cursor} {x : Expr}
    (hread : expr (level left) c = .ok (x, d)) (hend : Ended d.tokens) :
    isLabelStart c = .ok (false, c) := by
  rw [isLabelStart_eq]
  cases hlabel : isLabelKind c.current.kind with
  | false => rfl
  | true =>
    have hmarks : ¬ marksField c.next.current.kind := by
      intro hmarks
      have hlabelled : Labelled c.tokens := by
        obtain ⟨t, ts, n⟩ := c
        cases ts with
        | nil =>
          replace hlabel : isLabelKind t.kind = true := hlabel
          replace hmarks : marksField t.kind := hmarks
          obtain hkind | hkind := hmarks <;> rw [hkind] at hlabel <;> cases hlabel
        | cons u us => exact ⟨hlabel, hmarks⟩
      exact not_marksField_of_ended hend (stopsAtMark_label left c x d hlabelled hread)
    rw [beq_false_of_ne fun hk => hmarks (.inl hk), beq_false_of_ne fun hk => hmarks (.inr hk)]
    rfl

theorem Parser.isLabelStart_of_spaced {b : Bool} {c c' : Cursor} (h : Spaced b c.tokens c'.tokens)
    (hno : isLabelStart c = .ok (false, c)) : isLabelStart c' = .ok (false, c') := by
  obtain ⟨yes, hyes, hyes', -⟩ := isLabelStart_loose (.inl h)
  rw [hno] at hyes
  cases hyes
  exact hyes'

/-- The tokens of a text that holds an expression, and how they are read. -/
theorem Expr.exists_of_parse {e : String} {x : Expr} (hx : Expr.parse e = .ok x)
    (hnewline : ∀ t ts, Token.tokenize e = .ok (t :: ts) → t.kind ≠ .newline) :
    ∃ t ts d, Token.tokenize e = .ok (t :: ts) ∧
      expr outermost (Cursor.ofTokens (t :: ts)) = .ok (x, d) ∧ Ended d.tokens := by
  obtain ⟨ts, s, hts, hread⟩ := run_eq_ok_iff.mp hx
  obtain ⟨t, ts, rfl⟩ : ∃ t us, ts = t :: us := by
    obtain ⟨us, t, rfl, -⟩ := Token.last_of_tokenizeFrom hts
    exact List.exists_cons_of_ne_nil (List.append_ne_nil_of_right_ne_nil us (List.cons_ne_nil t []))
  have hkind : (Cursor.ofTokens (t :: ts)).current.kind ≠ .newline := hnewline t ts hts
  have hskip := Reader.skipNewlines_of_not hkind
  rw [wholeExpr, Reader.bind_of_ok _ hskip] at hread
  obtain ⟨y, d, hexpr, hread⟩ := Reader.bind_eq_ok hread
  obtain ⟨⟨⟩, s', hs', hrest⟩ := Reader.bind_eq_ok hread
  obtain ⟨u, s'', heof, hpure⟩ := Reader.bind_eq_ok hrest
  cases hs'
  cases hpure
  refine ⟨t, ts, d, hts, hexpr, ?_⟩
  rw [Ended, ← Cursor.tokens_skip]
  exact (Reader.expect_eq_ok heof).1

/-- What is read from the top is read one level below it too where there is room for it. -/
theorem Parser.expr_below_of_room {b : Nat} {c d : Cursor} {x : Expr} (hc : Room b c.tokens)
    (hread : expr outermost c = .ok (x, d)) (hlevels : b + x.nesting + 2 ≤ maxNesting)
    (hnodes : b + x.depth < maxDepth) :
    ∃ d', expr (level 63) { c with deepest := 1 } = .ok (x, d') := by
  have hdepth : (level 63).depth = 1 := by rw [depth_level]; rfl
  have hroom : (0, 1) ⊔ x.need ((level 63).depth + b) ≤ limits := by
    rw [hdepth]
    refine sup_le ⟨Nat.zero_le _, by decide⟩ ⟨?_, ?_⟩
    · show 1 + b + x.nesting + 1 ≤ maxNesting
      omega
    · show 1 + b + x.depth ≤ maxDepth
      omega
  obtain ⟨n, h⟩ := expr_of_room (by decide) hc hread hroom
  exact ⟨_, h⟩

/-- A text that holds an expression, read as a declaration. -/
theorem Parser.decl_of_expr {t : Token} {ts : List Token} {d : Cursor} {x : Expr}
    (hread : expr outermost (Cursor.ofTokens (t :: ts)) = .ok (x, d)) (hend : Ended d.tokens)
    (hbracket : t.kind ≠ .openBracket) :
    t.kind.startsOperand = true ∧ outermost.decl (Cursor.ofTokens (t :: ts)) =
      (expr (level 63) >>= fun x => pure (.embed x) : Reader Decl) ⟨t, ts, 1⟩ := by
  have hoperand : t.kind.startsOperand = true := by
    refine Decidable.by_contra fun hno => ?_
    exact refuses_expr (refuses_unary maxNesting) _ _ hno hread
  have hspaced : Spaced false (Cursor.ofTokens (t :: ts)).tokens (Cursor.mk t ts 1).tokens :=
    .of_faces rfl (List.cons_ne_nil t ts)
  have hlabel := isLabelStart_of_spaced hspaced (isLabelStart_of_read hread hend)
  exact ⟨hoperand, (decl_outermost rfl).trans (declBody_embed hoperand hbracket hlabel)⟩

/-- The same text as the value of a field. -/
theorem Parser.exists_field_of_expr {e : String} {t : Token} {ts : List Token}
    {d : Cursor} {x : Expr} (hts : Token.tokenize e = .ok (t :: ts))
    (hread : expr outermost (Cursor.ofTokens (t :: ts)) = .ok (x, d)) (hend : Ended d.tokens)
    (hbracket : t.kind ≠ .openBracket) :
    ∃ us c, Token.tokenize ("v: " ++ e) = .ok us ∧ (Cursor.ofTokens us).current.kind = .ident ∧
      c.faces = (Cursor.mk t ts 1).faces ∧ c.deepest = 1 ∧ outermost.decl (Cursor.ofTokens us) =
        (expr (level 63) >>= fun x => pure (.field (.regular "v") false x) : Reader Decl) c := by
  obtain ⟨us, hus, hfaces⟩ := Token.cuts_field (Token.cuts_of_tokenizeFrom hts) 0
  have hus : Token.tokenize ("v: " ++ e) = .ok us := by
    rw [Token.tokenize, String.toList_append]
    exact hus
  let c : Cursor := { Cursor.ofTokens us with deepest := 1 }
  have hc : c.faces = (.ident, ['v']) :: (.colon, [':']) :: t.face :: ts.map Token.face :=
    Cursor.faces_ofTokens hfaces
  have hrest : c.next.next.faces = (Cursor.mk t ts 1).faces :=
    Cursor.faces_next (Cursor.faces_next hc)
  have hspaced : Spaced false (Cursor.ofTokens (t :: ts)).tokens c.next.next.tokens :=
    .of_faces hrest.symm (List.cons_ne_nil t ts)
  have hlabel := isLabelStart_of_spaced hspaced (isLabelStart_of_read hread hend)
  refine ⟨us, c.next.next, hus, Cursor.kind_of_faces hc, hrest, ?_, ?_⟩
  · rw [Reader.deepest_next, Reader.deepest_next]
  · exact (decl_outermost (by cases us <;> rfl)).trans (declBody_field hc hbracket hlabel)

/-- An expression that begins with neither a newline nor a bracket may stand as a declaration. A
declaration leaves it one level less, and one node less of depth: it is read where its brackets, and
what nests in its tree, leave as much. It is refused only where it would nest too deep, and that is
where a field refuses it as its value. -/
theorem SchemaFile.parse_of_expr {e : String} {x : Expr} (hx : Expr.parse e = .ok x)
    (hstart : ∀ t ts, Token.tokenize e = .ok (t :: ts) → t.kind ≠ .newline ∧ t.kind ≠ .openBracket) :
    (bracketNesting e + x.nesting + 2 ≤ maxNesting → bracketNesting e + x.depth < maxDepth →
      SchemaFile.parse e = .ok ⟨none, [], [.embed x]⟩) ∧
    (SchemaFile.parse e = .ok ⟨none, [], [.embed x]⟩ ∨
      ∃ span limit, SchemaFile.parse e = .error ⟨span, .nestedDeeper limit⟩) ∧
    (SchemaFile.parse e = .ok ⟨none, [], [.embed x]⟩ ↔
      SchemaFile.parse ("v: " ++ e) = .ok ⟨none, [], [.field (.regular "v") false x]⟩) := by
  obtain ⟨t, ts, d, hts, hread, hend⟩ := Expr.exists_of_parse hx fun t ts hts => (hstart t ts hts).1
  have hbracket := (hstart t ts hts).2
  let a : Cursor := ⟨t, ts, 1⟩
  have ha : Spaced false (Cursor.ofTokens (t :: ts)).tokens a.tokens :=
    .of_faces rfl (List.cons_ne_nil t ts)
  obtain ⟨hoperand, hembed⟩ := decl_of_expr hread hend hbracket
  obtain ⟨us, c, hus, hkind, hfaces, hdeep, hfield⟩ := exists_field_of_expr hts hread hend hbracket
  have hc : Spaced false a.tokens c.tokens := .of_faces hfaces.symm (List.cons_ne_nil t ts)
  have hone := SchemaFile.parse_of_level hts hoperand hembed (expr_below ha hread hend)
  have hother := SchemaFile.parse_of_level hus (by rw [hkind]; rfl) hfield
    (expr_below (c := Cursor.ofTokens (t :: ts)) hc hread hend)
  refine ⟨fun hlevels hnodes => hone.2.mpr ?_, hone.1, hone.2.trans (Iff.trans ?_ hother.2.symm)⟩
  · exact expr_below_of_room (room_of_tokenize hts) hread hlevels hnodes
  · refine ⟨fun ⟨d, h⟩ => ?_, fun ⟨d, h⟩ => ?_⟩
    · obtain ⟨d', h', -⟩ := expr_alike hc hdeep.symm h
      exact ⟨d', h'⟩
    · obtain ⟨d', h', -⟩ := expr_alike (.of_faces hfaces hc.ne_nil_right) hdeep h
      exact ⟨d', h'⟩

theorem SchemaFile.parse_of_expr_conjunction : Expr.parse "a & \x7bb: 1\x7d" =
      .ok (.binary .unify (.ident "a") (.struct [.field (.regular "b") false (.int 1)])) ∧
    SchemaFile.parse "a & \x7bb: 1\x7d" =
      .ok ⟨none, [], [.embed (.binary .unify (.ident "a") (.struct [.field (.regular "b") false (.int 1)]))]⟩ := by
  have hx : Expr.parse "a & \x7bb: 1\x7d" =
      .ok (.binary .unify (.ident "a") (.struct [.field (.regular "b") false (.int 1)])) :=
    Expr.parse_of_readsAs (by decide +kernel)
  refine ⟨hx, (SchemaFile.parse_of_expr hx fun t ts hts => ?_).1 ?_ ?_⟩
  case refine_1 =>
    rw [Token.kind_of_beginsWith (show Token.beginsWith "a & \x7bb: 1\x7d" .ident = true by decide +kernel) hts]
    decide
  all_goals decide +kernel

def notsText (n : Nat) : String := String.ofList (List.replicate n '!' ++ ['a'])

/-- One sign below the limit on nesting there is no level left for a declaration. -/
theorem SchemaFile.parse_notsText : (∃ x, Expr.parse (notsText 63) = .ok x) ∧
    (∀ c ∈ (notsText 63).toList, c = '!' ∨ c = 'a') ∧
    SchemaFile.parse (notsText 63) = .error ⟨⟨63, 64⟩, .nestedDeeper maxNesting⟩ := by
  have hexpr : (Expr.parse (notsText 63)).isOk = true := by decide +kernel
  refine ⟨Except.exists_of_isOk hexpr, fun c hc => ?_, parse_of_refusedFor (by decide +kernel)⟩
  rw [notsText, String.toList_ofList, List.mem_append, List.mem_singleton] at hc
  exact hc.imp_left List.eq_of_mem_replicate

/-- A bracket in front is read as the label of a pattern, whatever follows it. -/
example : (Expr.parse "[1]").isOk = true ∧ (SchemaFile.parse "[1]").isOk = false := by
  decide +kernel

end SchemaMock
