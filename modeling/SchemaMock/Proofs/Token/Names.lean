import SchemaMock.Expr
import SchemaMock.Proofs.Token.Faces

/-! # Cutting names and operators

A name, and each operator, is cut out whole where a blank or the end of the text follows it.
-/

namespace SchemaMock

/-- A word that is read as the name of a field: no keyword, and not `_`, which stands for any
value. -/
structure Name where
  first : Char
  more : List Char
  isStart : Token.isIdentStart first = true
  isRest : ∀ c ∈ more, Token.isIdentChar c = true
  noKeyword : Token.word (first :: more) = .ident
  noTop : first :: more ≠ ['_']

def Name.text (n : Name) : List Char := n.first :: n.more

def BinaryOp.token : BinaryOp → TokenKind
  | unify => .amp
  | disjoin => .bar
  | or => .barBar
  | and => .ampAmp
  | eq => .eqEq
  | ne => .notEq
  | lt => .lt
  | le => .le
  | gt => .gt
  | ge => .ge
  | add => .plus
  | sub => .minus
  | mul => .star
  | div => .slash

namespace Token

variable {cs : List Char} {faces : List Face}

theorem isGap_of_isIdentStart {c : Char} (h : isIdentStart c = true) : isGap c = false := by
  rw [Bool.eq_false_iff]
  intro hgap
  simp only [isGap, Bool.or_eq_true, beq_iff_eq] at hgap
  obtain ((rfl | rfl) | rfl) | rfl := hgap <;> exact absurd h (by decide)

/-- A name is cut out whole if no further character of a name follows. -/
theorem cuts_name (n : Name) (hend : ∀ c ∈ cs.head?, isIdentChar c = false ∧ c ≠ '|')
    (h : Cuts cs faces) : Cuts (n.text ++ cs) ((.ident, n.text) :: faces) := by
  have htake : (n.more ++ cs).takeWhile isIdentChar = n.more := by
    rw [List.takeWhile_append_of_pos n.isRest]
    cases cs with
    | nil => exact List.append_nil _
    | cons c cs => rw [List.takeWhile_cons_of_neg (by simp [(hend c rfl).1]), List.append_nil]
  have hdrop : (n.more ++ cs).dropWhile isIdentChar = cs := by
    rw [List.dropWhile_append_of_pos n.isRest]
    cases cs with
    | nil => rfl
    | cons c cs => rw [List.dropWhile_cons_of_neg (by simp [(hend c rfl).1])]
  have hcut : cut n.first (n.more ++ cs) = ⟨.token .ident, n.more, cs⟩ := by
    have hrun : run (.token (word (n.first :: (n.more ++ cs).takeWhile isIdentChar))) isIdentChar
        (n.more ++ cs) = ⟨.token .ident, n.more, cs⟩ := by
      rw [run, htake, hdrop, n.noKeyword]
    unfold cut
    simp only [isGap_of_isIdentStart n.isStart, n.isStart, if_true, Bool.false_eq_true, if_false]
    split
    case h_1 rest hfirst hmore =>
      -- `_|_` would begin here only after `_` by itself
      exfalso
      cases hm : n.more with
      | nil =>
        rw [hm, List.nil_append] at hmore
        exact (hend '|' (by rw [hmore]; rfl)).2 rfl
      | cons d ds =>
        rw [hm, List.cons_append, List.cons.injEq] at hmore
        have hd := n.isRest d (by rw [hm]; exact List.mem_cons_self)
        rw [hmore.1] at hd
        exact absurd hd (by decide)
    case h_2 => exact hrun
  have hcuts : Cuts (n.first :: (n.more ++ cs)) _ := .token (by rw [hcut]) (by rw [hcut]; exact h)
  rwa [hcut] at hcuts

theorem cuts_blank (h : Cuts cs faces) : Cuts (' ' :: cs) faces := .gap rfl (cuts_dropWhile_isGap h)

theorem cuts_operator (op : BinaryOp) (h : Cuts (' ' :: cs) faces) :
    Cuts (op.symbol.toList ++ ' ' :: cs) ((op.token, op.symbol.toList) :: faces) := by
  cases op <;> exact Cuts.token rfl h

end Token

end SchemaMock
