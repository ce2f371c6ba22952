import SchemaMock.Proofs.Token.Names
import SchemaMock.Proofs.Token.Run

/-! # The precedence of operators

Names with operators between them are read as the tree in which tighter operators stand below looser
ones and, of operators that bind alike, the one further to the left stands below.
-/

namespace SchemaMock

inductive Piece where
  | operand (x : Expr)
  | operator (op : BinaryOp)

namespace Expr

def pieces : Expr → List Piece
  | .binary op x y => x.pieces ++ .operator op :: y.pieces
  | x => [.operand x]

def operator? : Expr → Option BinaryOp
  | .binary op _ _ => some op
  | _ => none

/-- To the left of each operator stand operators that bind no looser, to its right tighter ones. -/
def Climbs : Expr → Prop
  | .binary op x y =>
    (∀ p ∈ x.operator?, op.precedence ≤ p.precedence) ∧
      (∀ p ∈ y.operator?, op.precedence < p.precedence) ∧ x.Climbs ∧ y.Climbs
  | _ => True

variable {x y : Expr} {op : BinaryOp}

theorem pieces_of_not_binary (h : ∀ op y z, x = .binary op y z → False) :
    x.pieces = [.operand x] := by
  rw [pieces]
  exact h

/-- Of the operators in a tree, the one at the root binds loosest. -/
theorem Climbs.exists_root (h : x.Climbs) (hop : .operator op ∈ x.pieces) :
    ∃ p, x.operator? = some p ∧ p.precedence ≤ op.precedence := by
  fun_induction pieces x with
  | case1 q x y ihx ihy =>
    obtain ⟨hleft, hright, hx, hy⟩ := h
    refine ⟨q, rfl, ?_⟩
    simp only [List.mem_append, List.mem_cons, Piece.operator.injEq] at hop
    obtain hop | rfl | hop := hop
    · obtain ⟨p, hp, hle⟩ := ihx hx hop
      exact Nat.le_trans (hleft p hp) hle
    · exact Nat.le_refl _
    · obtain ⟨p, hp, hle⟩ := ihy hy hop
      exact Nat.le_trans (Nat.le_of_lt (hright p hp)) hle
  | case2 x hx => simp at hop

theorem Climbs.le_left {p : BinaryOp} (h : (Expr.binary p x y).Climbs)
    (hop : .operator op ∈ x.pieces) : p.precedence ≤ op.precedence := by
  obtain ⟨q, hq, hle⟩ := h.2.2.1.exists_root hop
  exact Nat.le_trans (h.1 q hq) hle

theorem Climbs.lt_right {p : BinaryOp} (h : (Expr.binary p x y).Climbs)
    (hop : .operator op ∈ y.pieces) : p.precedence < op.precedence := by
  obtain ⟨q, hq, hle⟩ := h.2.2.2.exists_root hop
  exact Nat.lt_of_lt_of_le (h.2.1 q hq) hle

/-- Of two trees with the same pieces, neither has more of them to the left of its root. -/
theorem Climbs.left_eq {p q : BinaryOp} {x' y' : Expr} (hx : (Expr.binary p x x').Climbs)
    (hy : (Expr.binary q y y').Climbs) {more : List Piece} (hleft : y.pieces = x.pieces ++ more)
    (hright : .operator p :: x'.pieces = more ++ .operator q :: y'.pieces) : more = [] := by
  cases more with
  | nil => rfl
  | cons a more =>
    rw [List.cons_append, List.cons.injEq] at hright
    have hlt : p.precedence < q.precedence := hx.lt_right (by simp [hright.2])
    have hle : q.precedence ≤ p.precedence := hy.le_left (by simp [hleft, ← hright.1])
    omega

/-- The pieces in their order make only one tree that climbs. -/
theorem eq_of_pieces (hx : x.Climbs) (hy : y.Climbs) (h : x.pieces = y.pieces) : x = y := by
  fun_induction pieces x generalizing y with
  | case1 p x x' ihx ihx' =>
    fun_cases pieces y with
    | case1 q y y' =>
      rw [pieces] at h
      have hleft : x.pieces = y.pieces := by
        rcases List.append_eq_append_iff.mp h with ⟨more, hy', hx'⟩ | ⟨more, hx', hy'⟩
        · rw [hy', hx.left_eq hy hy' hx', List.append_nil]
        · rw [hx', hy.left_eq hx hx' hy', List.append_nil]
      rw [hleft, List.append_cancel_left_eq, List.cons.injEq, Piece.operator.injEq] at h
      rw [h.1, ihx hx.2.2.1 hy.2.2.1 hleft, ihx' hx.2.2.2 hy.2.2.2 h.2]
    | case2 y hother =>
      rw [pieces_of_not_binary hother] at h
      have hp : .operator p ∈ [Piece.operand y] := h ▸ by simp
      simp at hp
  | case2 x hother =>
    fun_cases pieces y with
    | case1 q y y' =>
      have hq : .operator q ∈ [Piece.operand x] := h ▸ by simp [pieces]
      simp at hq
    | case2 y hother' =>
      rw [pieces_of_not_binary hother', List.cons.injEq, Piece.operand.injEq] at h
      exact h.1

end Expr

/-- Operators, each with the name that is its right operand. -/
abbrev Operations := List (BinaryOp × Name)

namespace Operations

def text : Operations → List Char
  | [] => []
  | (op, n) :: more => ' ' :: op.symbol.toList ++ ' ' :: n.text ++ text more

def faces : Operations → List Face
  | [] => [(.eof, [])]
  | (op, n) :: more => (op.token, op.symbol.toList) :: (.ident, n.text) :: faces more

theorem length_faces (ops : Operations) : (faces ops).length = 2 * ops.length + 1 := by
  induction ops with
  | nil => rfl
  | cons o ops ih =>
    rw [faces, List.length_cons, List.length_cons, List.length_cons, ih]
    omega

def pieces (ops : Operations) : List Piece :=
  ops.flatMap fun o => [.operator o.1, .operand (.ident (String.ofList o.2.text))]

end Operations

namespace Token

theorem cuts_operations (n : Name) (ops : Operations) :
    Cuts (n.text ++ Operations.text ops) ((.ident, n.text) :: Operations.faces ops) := by
  induction ops generalizing n with
  | nil => exact cuts_name n nofun .nil
  | cons o ops ih =>
    obtain ⟨op, n'⟩ := o
    have hop := cuts_blank (cuts_operator op (cuts_blank (ih n')))
    have htext : Operations.text ((op, n') :: ops) =
        ' ' :: (op.symbol.toList ++ ' ' :: (n'.text ++ Operations.text ops)) := by
      simp [Operations.text]
    rw [htext]
    exact cuts_name n (fun c hc => by cases hc; decide) hop

end Token

namespace Parser

open Reader SchemaMock.Expr

theorem binaryOp?_token (op : BinaryOp) : binaryOp? op.token = some op := by
  cases op <;> rfl

/-- The level of a whole text leaves one less below it. -/
theorem unary_outermost (c : Cursor) :
    outermost.unary c = (reach 1 >>= fun _ => unaryBody (level 63)) c := rfl

theorem primary_name {lv : Level} {c : Cursor} {n : Name} {fs : List Face}
    (hc : c.faces = (.ident, n.text) :: fs) :
    primary lv c = .ok (.ident (String.ofList n.text), c.next) := by
  have hkind : c.current.kind = .ident := Cursor.kind_of_faces hc
  have htext : c.current.text = n.text := Cursor.text_of_faces hc
  unfold primary
  simp only [current_bind, hkind, advance_bind, htext]
  rw [if_neg (show n.text ≠ ['_'] from n.noTop)]
  rfl

/-- No selection, index or call follows. -/
theorem postfixTurn_done {lv : Level} {c : Cursor} {x : Expr} (hdot : c.current.kind ≠ .dot)
    (hbracket : c.current.kind ≠ .openBracket) (hparen : c.current.kind ≠ .openParen) :
    postfixTurn lv x c = .ok (.done x, c) := by
  unfold postfixTurn
  rw [current_bind]
  cases hkind : c.current.kind <;> first | contradiction | rfl

theorem unary_of_primary {c : Cursor} {x : Expr} (hnone : prefixOp? c.current.kind = none)
    (hfirst : ∀ d, primary (level 63) { c with deepest := d } = .ok (x, { c.next with deepest := d }))
    (hdot : c.next.current.kind ≠ .dot) (hbracket : c.next.current.kind ≠ .openBracket)
    (hparen : c.next.current.kind ≠ .openParen) :
    outermost.unary c = .ok (x, { c.next with deepest := max c.deepest 1 }) := by
  let s : Cursor := { c with deepest := max c.deepest 1 }
  have hreach : reach 1 c = .ok ((), s) := reach_of_le (by decide)
  have hturn : postfixTurn (level 63) x { c.next with deepest := 1 } =
    .ok (.done x, { c.next with deepest := 1 }) :=
    postfixTurn_done hdot hbracket hparen
  have hchain : postfixChain (level 63) s = .ok (x, { c.next with deepest := max 1 s.deepest }) :=
    subtree_of_ok (c := s) ((bind_of_ok _ (hfirst 1)).trans (loop_of_done hturn))
  rw [unary_outermost, bind_of_ok _ hreach, unaryBody, current_bind, hnone]
  exact hchain.trans (by rw [Nat.max_eq_right (Nat.le_max_right _ _)])

theorem unary_name {c : Cursor} {n : Name} {f : Face} {fs : List Face}
    (hc : c.faces = (.ident, n.text) :: f :: fs) (hdot : f.1 ≠ .dot) (hbracket : f.1 ≠ .openBracket)
    (hparen : f.1 ≠ .openParen) :
    outermost.unary c =
      .ok (.ident (String.ofList n.text), { c.next with deepest := max c.deepest 1 }) := by
  have hkind : c.current.kind = .ident := Cursor.kind_of_faces hc
  have hnext : c.next.current.kind = f.1 := Cursor.kind_of_faces (Cursor.faces_next hc)
  refine unary_of_primary (by rw [hkind]; rfl) (fun d => ?_) (hnext ▸ hdot) (hnext ▸ hbracket)
    (hnext ▸ hparen)
  rw [← Cursor.next_with]
  exact primary_name hc

/-! ## Operations -/

/-- One operation after the left operand, if the operator binds tightly enough. -/
def operation (tighter : Nat → Reader Expr) (least : Nat) (lhs : Expr) :
    Reader (Turn Expr Expr) := do
  match binaryOp? (← current).kind with
  | none => return .done lhs
  | some op =>
    if op.precedence < least then return .done lhs
    wrap
    let _ ← advance
    skipNewlines
    let rhs ← tighter (op.precedence + 1)
    return .again (.binary op lhs rhs)

theorem binary_succ (lv : Level) (rounds least : Nat) :
    binary lv (rounds + 1) least =
      subtree lv.depth (lv.unary >>= loop (operation (binary lv rounds) least)) := rfl

/-- The tree of what has been read: the operations that follow begin with one that binds no tighter
than its root. -/
structure Joined (least : Nat) (pieces : List Piece) (ops : Operations) (x : Expr) : Prop where
  pieces : x.pieces = pieces
  climbs : x.Climbs
  least : ∀ p ∈ x.operator?, least ≤ p.precedence
  next : ∀ p ∈ x.operator?, ∀ o ∈ ops.head?, o.1.precedence ≤ p.precedence

/-- After `pieces`, the reader takes the operations up to the first one that binds looser than
`least`. The deepest node goes down by no more than a level for each. -/
def Takes (least : Nat) (read : Reader Expr) (pieces : List Piece) (ops : Operations)
    (c : Cursor) : Prop :=
  ∃ taken left x s, ops = taken ++ left ∧ read c = .ok (x, s) ∧ s.faces = Operations.faces left ∧
    s.deepest ≤ max c.deepest 1 + taken.length ∧
      Joined least (pieces ++ Operations.pieces taken) left x ∧
    ∀ o ∈ left.head?, o.1.precedence < least

theorem joined_name (least : Nat) (n : Name) (ops : Operations) :
    Joined least [.operand (.ident (String.ofList n.text))] ops (.ident (String.ofList n.text)) :=
  ⟨rfl, trivial, nofun, nofun⟩

theorem Joined.binary {least : Nat} {before after : List Piece} {op : BinaryOp} {n : Name}
    {ops left : Operations} {x y : Expr} (hx : Joined least before ((op, n) :: ops) x)
    (hop : least ≤ op.precedence) (hy : Joined (op.precedence + 1) after left y)
    (hleft : ∀ o ∈ left.head?, o.1.precedence < op.precedence + 1) :
    Joined least (before ++ .operator op :: after) left (.binary op x y) where
  pieces := by rw [Expr.pieces, hx.pieces, hy.pieces]
  climbs := ⟨fun p hp => hx.next p hp _ rfl, hy.least, hx.climbs, hy.climbs⟩
  least p hp := by cases hp; exact hop
  next p hp o ho := by cases hp; exact Nat.le_of_lt_succ (hleft o ho)

/-- The reader stops before the first operation. -/
theorem takes_none {least : Nat} {read : Reader Expr} {pieces : List Piece} {ops : Operations}
    {c : Cursor} {x : Expr} (hread : read c = .ok (x, c)) (hc : c.faces = Operations.faces ops)
    (hx : Joined least pieces ops x) (hops : ∀ o ∈ ops.head?, o.1.precedence < least) :
    Takes least read pieces ops c :=
  ⟨[], ops, x, c, rfl, hread, hc, Nat.le_max_left _ _,
    by rwa [Operations.pieces, List.flatMap_nil, List.append_nil], hops⟩

/-- An operation that binds tightly enough, and then what follows it. -/
theorem operation_of_takes {rounds least : Nat} (lhs : Expr) {op : BinaryOp} {n : Name}
    {ops : Operations} {c : Cursor} (hc : c.faces = Operations.faces ((op, n) :: ops))
    (hop : ¬ op.precedence < least) (hroom : c.deepest < maxDepth)
    (hbinary : ∀ s : Cursor, s.faces = (.ident, n.text) :: Operations.faces ops →
      Takes (op.precedence + 1) (binary outermost rounds (op.precedence + 1))
        [.operand (.ident (String.ofList n.text))] ops s) :
    ∃ taken left y s, ops = taken ++ left ∧
      operation (binary outermost rounds) least lhs c = .ok (.again (.binary op lhs y), s) ∧
      s.faces = Operations.faces left ∧ s.deepest ≤ c.deepest + 1 + taken.length ∧
      Joined (op.precedence + 1) (.operand (.ident (String.ofList n.text)) :: Operations.pieces taken) left y ∧
      ∀ o ∈ left.head?, o.1.precedence < op.precedence + 1 := by
  let s : Cursor := { c with deepest := c.deepest + 1 }
  have hkind : c.current.kind = op.token := Cursor.kind_of_faces hc
  have hnext : s.next.faces = (.ident, n.text) :: Operations.faces ops := Cursor.faces_next hc
  have hskip : skipNewlines s.next = .ok ((), s.next) :=
    skipNewlines_of_not (by rw [Cursor.kind_of_faces hnext]; exact TokenKind.noConfusion)
  have hdeepest : s.next.deepest = c.deepest + 1 := deepest_next s
  obtain ⟨taken, left, y, t, hops, hread, ht, hlimit, hy, hleft⟩ := hbinary s.next hnext
  refine ⟨taken, left, y, t, hops, ?_, ht, ?_, hy, hleft⟩
  · rw [operation, current_bind, hkind, binaryOp?_token]
    simp only [if_neg hop]
    rw [bind_of_ok _ (wrap_of_lt hroom), advance_bind, bind_of_ok _ hskip, bind_of_ok _ hread]
    rfl
  · omega

theorem pieces_append (ops ops' : Operations) :
    Operations.pieces (ops ++ ops') = Operations.pieces ops ++ Operations.pieces ops' :=
  List.flatMap_append

/-- The operations at one level, where the right operands are read as they should be. -/
theorem takes_loop {rounds least k : Nat} {lhs : Expr} {pieces : List Piece}
    {ops : Operations} {c : Cursor}
    (hbinary : ∀ (tighter : Nat) (n : Name) (ops : Operations) (s : Cursor), least < tighter →
      tighter ≤ 8 → ops.length < maxDepth → s.faces = (.ident, n.text) :: Operations.faces ops →
      Takes tighter (binary outermost rounds tighter) [.operand (.ident (String.ofList n.text))]
        ops s)
    (hk : ops.length < k) (hc : c.faces = Operations.faces ops)
    (hroom : c.deepest + ops.length ≤ maxDepth) (hlhs : Joined least pieces ops lhs) :
    Takes least (loop.go (operation (binary outermost rounds) least) k lhs) pieces ops c := by
  induction k generalizing lhs pieces ops c with
  | zero => exact absurd hk (Nat.not_lt_zero _)
  | succ k ih =>
    cases ops with
    | nil =>
      have hkind : c.current.kind = .eof := Cursor.kind_of_faces hc
      refine takes_none (loop_go_done ?_) hc hlhs nofun
      rw [operation, current_bind, hkind]
      rfl
    | cons o ops =>
      obtain ⟨op, n⟩ := o
      rw [List.length_cons] at hk hroom
      by_cases hop : op.precedence < least
      · have hkind : c.current.kind = op.token := Cursor.kind_of_faces hc
        refine takes_none (loop_go_done ?_) hc hlhs fun o ho => by cases ho; exact hop
        rw [operation, current_bind, hkind, binaryOp?_token]
        simp only [if_pos hop]
        rfl
      · obtain ⟨taken, left, y, s, rfl, hturn, hs, hdeepest, hy, hleft⟩ :=
          operation_of_takes lhs hc hop (by omega) fun s hs =>
            hbinary _ n ops s (by omega) (by cases op <;> decide) (by omega) hs
        rw [List.length_append] at hk hroom
        obtain ⟨more, rest, x, t, rfl, hread, ht, hlimit, hx, hrest⟩ :=
          ih (by omega) hs (by omega) (hlhs.binary (Nat.le_of_not_lt hop) hy hleft)
        refine ⟨(op, n) :: taken ++ more, rest, x, t, by simp, (loop_go_again hturn).trans hread, ht, ?_, ?_, hrest⟩
        · rw [List.length_append, List.length_cons]
          omega
        · rw [pieces_append]
          simpa [Operations.pieces] using hx

/-- What follows a name is no selection, index or call of it. -/
theorem exists_faces (ops : Operations) :
    ∃ f fs, Operations.faces ops = f :: fs ∧ f.1 ≠ .dot ∧ f.1 ≠ .openBracket ∧
      f.1 ≠ .openParen := by
  cases ops with
  | nil => exact ⟨_, _, rfl, nofun, nofun, nofun⟩
  | cons o ops => exact ⟨_, _, rfl, by cases o.1 <;> decide⟩

/-- A name and what follows it, up to an operator that binds too loosely. -/
theorem takes_binary {rounds least : Nat} {n : Name} {ops : Operations} {c : Cursor}
    (hrounds : 9 ≤ rounds + least) (hleast : least ≤ 8) (hroom : ops.length < maxDepth)
    (hc : c.faces = (.ident, n.text) :: Operations.faces ops) :
    Takes least (binary outermost rounds least) [.operand (.ident (String.ofList n.text))] ops
      c := by
  induction rounds generalizing least n ops c with
  | zero => omega
  | succ rounds ih =>
    obtain ⟨f, fs, hfaces, hdot, hbracket, hparen⟩ := exists_faces ops
    let start : Cursor := { c with deepest := 0 }
    let s : Cursor := { c.next with deepest := 1 }
    have hstart : c.faces = (.ident, n.text) :: f :: fs := hfaces ▸ hc
    have hfirst : outermost.unary start = .ok (.ident (String.ofList n.text), s) :=
      (unary_name (c := start) hstart hdot hbracket hparen).trans (by rw [Cursor.next_with]; rfl)
    have hs : s.faces = Operations.faces ops := (Cursor.faces_next hstart).trans hfaces.symm
    have hlength : ops.length < s.later.length + 1 := by
      have hcount := Operations.length_faces ops
      rw [hfaces, List.length_cons, ← Cursor.length_of_faces (hs.trans hfaces)] at hcount
      omega
    obtain ⟨taken, left, x, t, rfl, hread, ht, hlimit, hx, hleft⟩ :=
      takes_loop (fun tighter n ops s hlt hle hroom hs => ih (by omega) hle hroom hs) hlength hs
        (show 1 + ops.length ≤ maxDepth by omega) (joined_name least n ops)
    refine ⟨taken, left, x, { t with deepest := max t.deepest c.deepest }, rfl, ?_, ht,
      ?_, hx, hleft⟩
    · rw [binary_succ]
      exact subtree_of_ok ((bind_of_ok _ hfirst).trans hread)
    · replace hlimit : t.deepest ≤ 1 + taken.length := hlimit
      show max t.deepest c.deepest ≤ max c.deepest 1 + taken.length
      omega

end Parser

/-- Up to 256 names with operators between them are read as the tree that the precedences call
for. -/
theorem Expr.parse_operations (first : Name) (ops : Operations) (h : ops.length < maxDepth) :
    ∃ x, Expr.parse (String.ofList (first.text ++ ops.text)) = .ok x ∧
      x.pieces = .operand (.ident (String.ofList first.text)) :: ops.pieces ∧ x.Climbs := by
  obtain ⟨ts, hts, hfaces⟩ := Token.cuts_operations first ops 0
  have htokens : Token.tokenize (String.ofList (first.text ++ ops.text)) = .ok ts := by
    rw [Token.tokenize, String.toList_ofList, hts]
  have hc := Cursor.faces_ofTokens hfaces
  obtain ⟨taken, left, x, s, rfl, hread, hs, -, hx, hleft⟩ :=
    show Parser.Takes 1 (Parser.expr Parser.outermost) _ ops (Cursor.ofTokens ts) from
      Parser.takes_binary (by decide) (by decide) h hc
  have hend : left = [] := by
    cases left with
    | nil => rfl
    | cons o left => exact absurd (hleft o rfl) (by cases o.1 <;> decide)
  subst hend
  have hkind : s.current.kind = .eof := Cursor.kind_of_faces hs
  refine ⟨x, Parser.run_eq_ok_iff.mpr ⟨ts, s.next, htokens, ?_⟩, ?_, hx.climbs⟩
  · have hname : (Cursor.ofTokens ts).current.kind ≠ .newline := by
      rw [Cursor.kind_of_faces hc]
      exact TokenKind.noConfusion
    rw [Parser.wholeExpr, Reader.bind_of_ok _ (Reader.skipNewlines_of_not hname),
      Reader.bind_of_ok _ hread, Reader.bind_of_ok _
        (Reader.skipNewlines_of_not (by rw [hkind]; exact TokenKind.noConfusion)),
      Reader.bind_of_ok _ (Reader.expect_of_kind hkind)]
    rfl
  · rw [hx.pieces, List.append_nil]
    rfl

def Name.letter (c : Char) (h : Token.isIdentStart c = true) (hword : Token.word [c] = .ident)
    (hne : c ≠ '_') : Name :=
  ⟨c, [], h, nofun, hword, by simpa using hne⟩

def sampleOperations : Operations :=
  [(.sub, .letter 'b' rfl rfl (by decide)), (.mul, .letter 'c' rfl rfl (by decide)),
    (.sub, .letter 'd' rfl rfl (by decide)), (.disjoin, .letter 'e' rfl rfl (by decide))]

theorem Expr.parse_operations_mixed :
    sampleOperations.length < maxDepth ∧ Expr.parse "a - b * c - d | e" = .ok
      (.binary .disjoin (.binary .sub (.binary .sub (.ident "a") (.binary .mul (.ident "b") (.ident "c"))) (.ident "d"))
        (.ident "e")) := by
  have hlength : sampleOperations.length < maxDepth := by decide
  obtain ⟨x, hparse, hpieces, hclimbs⟩ :=
    Expr.parse_operations (.letter 'a' rfl rfl (by decide)) sampleOperations hlength
  refine ⟨hlength, hparse.trans (congrArg Except.ok (Expr.eq_of_pieces hclimbs ?_ hpieces))⟩
  simp [Expr.Climbs, Expr.operator?, BinaryOp.precedence]

end SchemaMock
