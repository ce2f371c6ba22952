import SchemaMock.Expr.Parser

/-! # Comparing expressions

Equality of expressions is not decidable, as that of floats is not. A comparison that takes no two
floats for equal decides it for the others.
-/

namespace SchemaMock

mutual

/-- Whether two expressions are the same and without floats. -/
def Expr.same : Expr → Expr → Bool
  | .top, .top => true
  | .bottom, .bottom => true
  | .null, .null => true
  | .bool b, .bool c => b == c
  | .int i, .int j => i == j
  | .str s, .str t => s == t
  | .ident s, .ident t => s == t
  | .struct ds, .struct es => sameDecls ds es
  | .list xs t, .list ys u => sameAll xs ys && sameTail t u
  | .select x l, .select y m => x.same y && l == m
  | .index x p, .index y q => x.same y && p.same q
  | .call x xs, .call y ys => x.same y && sameAll xs ys
  | .unary o x, .unary p y => o == p && x.same y
  | .binary o x x', .binary p y y' => o == p && x.same y && x'.same y'
  | .marked x, .marked y => x.same y
  | _, _ => false

def Decl.same : Decl → Decl → Bool
  | .field l o x, .field m p y => l == m && o == p && x.same y
  | .pattern x x', .pattern y y' => x.same y && x'.same y'
  | .ellipsis, .ellipsis => true
  | .embed x, .embed y => x.same y
  | _, _ => false

def sameAll : List Expr → List Expr → Bool
  | [], [] => true
  | x :: xs, y :: ys => x.same y && sameAll xs ys
  | _, _ => false

def sameTail : Option Expr → Option Expr → Bool
  | none, none => true
  | some x, some y => x.same y
  | _, _ => false

def sameDecls : List Decl → List Decl → Bool
  | [], [] => true
  | x :: xs, y :: ys => x.same y && sameDecls xs ys
  | _, _ => false

end

mutual

theorem Expr.eq_of_same {x y : Expr} (h : x.same y = true) : x = y := by
  cases x <;> cases y <;>
    simp only [Expr.same, Bool.and_eq_true, beq_iff_eq, Bool.false_eq_true] at h ⊢
  case struct.struct => rw [eq_of_sameDecls h]
  case list.list => rw [eq_of_sameAll h.1, eq_of_sameTail h.2]
  case select.select => rw [Expr.eq_of_same h.1, h.2]
  case index.index => rw [Expr.eq_of_same h.1, Expr.eq_of_same h.2]
  case call.call => rw [Expr.eq_of_same h.1, eq_of_sameAll h.2]
  case unary.unary => rw [h.1, Expr.eq_of_same h.2]
  case binary.binary => rw [h.1.1, Expr.eq_of_same h.1.2, Expr.eq_of_same h.2]
  case marked.marked => rw [Expr.eq_of_same h]
  all_goals first | rfl | rw [h]

theorem Decl.eq_of_same {d e : Decl} (h : d.same e = true) : d = e := by
  cases d <;> cases e <;> simp only [Decl.same, Bool.and_eq_true, beq_iff_eq,
    Bool.false_eq_true] at h
  case field.field => rw [h.1.1, h.1.2, Expr.eq_of_same h.2]
  case pattern.pattern => rw [Expr.eq_of_same h.1, Expr.eq_of_same h.2]
  case ellipsis.ellipsis => rfl
  case embed.embed => rw [Expr.eq_of_same h]

theorem eq_of_sameAll {xs ys : List Expr} (h : sameAll xs ys = true) : xs = ys := by
  cases xs <;> cases ys <;> simp only [sameAll, Bool.and_eq_true, Bool.false_eq_true] at h
  case nil.nil => rfl
  case cons.cons => rw [Expr.eq_of_same h.1, eq_of_sameAll h.2]

theorem eq_of_sameTail {t u : Option Expr} (h : sameTail t u = true) : t = u := by
  cases t <;> cases u <;> simp only [sameTail, Bool.false_eq_true] at h
  case none.none => rfl
  case some.some => rw [Expr.eq_of_same h]

theorem eq_of_sameDecls {ds es : List Decl} (h : sameDecls ds es = true) : ds = es := by
  cases ds <;> cases es <;> simp only [sameDecls, Bool.and_eq_true, Bool.false_eq_true] at h
  case nil.nil => rfl
  case cons.cons => rw [Decl.eq_of_same h.1, eq_of_sameDecls h.2]

end

def SchemaFile.readsAs (text : String) (f : SchemaFile) : Bool :=
  match SchemaFile.parse text with
  | .ok g => g.packageName == f.packageName && g.imports == f.imports && sameDecls g.decls f.decls
  | .error _ => false

theorem SchemaFile.parse_of_readsAs {text : String} {f : SchemaFile} (h : readsAs text f = true) :
    SchemaFile.parse text = .ok f := by
  unfold readsAs at h
  split at h
  case h_1 g hg =>
    simp only [Bool.and_eq_true, beq_iff_eq] at h
    obtain ⟨⟨hpackage, himports⟩, hdecls⟩ := h
    rw [hg, show g = f from congr (congr (congrArg SchemaFile.mk hpackage) himports) (eq_of_sameDecls hdecls)]
  case h_2 => cases h

def Expr.readsAs (text : String) (x : Expr) : Bool :=
  match Expr.parse text with
  | .ok y => y.same x
  | .error _ => false

theorem Expr.parse_of_readsAs {text : String} {x : Expr} (h : readsAs text x = true) :
    Expr.parse text = .ok x := by
  unfold readsAs at h
  split at h
  case h_1 y hy => rw [hy, eq_of_same h]
  case h_2 => cases h

def SchemaFile.refusedFor (text : String) (m : Malformed) : Bool :=
  match SchemaFile.parse text with
  | .ok _ => false
  | .error m' => m' == m

theorem SchemaFile.parse_of_refusedFor {text : String} {m : Malformed}
    (h : refusedFor text m = true) : SchemaFile.parse text = .error m := by
  unfold refusedFor at h
  split at h
  case h_1 => cases h
  case h_2 hm => rw [hm, eq_of_beq h]

def Token.beginsWith (text : String) (kind : TokenKind) : Bool :=
  match tokenize text with
  | .ok (t :: _) => t.kind == kind
  | _ => false

theorem Token.kind_of_beginsWith {text : String} {kind : TokenKind} {t : Token} {ts : List Token}
    (h : beginsWith text kind = true) (hts : tokenize text = .ok (t :: ts)) : t.kind = kind := by
  rw [beginsWith, hts] at h
  exact eq_of_beq h

end SchemaMock
