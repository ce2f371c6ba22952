import SchemaMock.Expr.Parser
import SchemaMock.Proofs.Condition
import SchemaMock.Proofs.Token.Deepest

/-! # Rounds of unification in a text

Unification takes a round for each `&` on the way to an operand. In a text that is read these are
never more than `maxDepth`: on the left of an operator the count of the deepest node goes up, and on
the right of a `&` an operand with another must stand one level further in.
-/

namespace SchemaMock

namespace Expr

/-- The rounds in which unification splits the expression. -/
def rounds : Expr → Nat
  | .binary .unify x y => max x.rounds y.rounds + 1
  | _ => 1

end Expr

theorem Condition.rounds_toExpr (t : Condition) : t.toExpr.rounds = t.height := by
  induction t with
  | any => rfl
  | type t => rfl
  | bound op c => rfl
  | equal c =>
    cases c with
    | plain s => cases s <;> rfl
    | minusInt i fits => rfl
    | minusFloat x => rfl
  | both a b iha ihb => rw [toExpr, Expr.rounds, iha, ihb, height]

def Decl.children : Decl → List Expr
  | .field _ _ value => [value]
  | .pattern label value => [label, value]
  | .ellipsis => []
  | .embed x => [x]

namespace Expr

def children : Expr → List Expr
  | .struct ds => ds.flatMap Decl.children
  | .list elems tail => elems ++ tail.toList
  | .select base _ => [base]
  | .index base position => [base, position]
  | .call func args => func :: args
  | .unary _ operand => [operand]
  | .binary _ lhs rhs => [lhs, rhs]
  | .marked x => [x]
  | _ => []

/-- No expression within this one takes more than `maxDepth` rounds. -/
inductive Shallow : Expr → Prop where
  | of {x : Expr} (rounds : x.rounds ≤ maxDepth) (within : ∀ y ∈ x.children, Shallow y) : Shallow x

theorem Shallow.rounds_le {x : Expr} (h : Shallow x) : x.rounds ≤ maxDepth := by
  cases h
  assumption

theorem Shallow.within {x y : Expr} (h : Shallow x) (hy : y ∈ x.children) : Shallow y := by
  cases h with
  | of _ within => exact within y hy

theorem Shallow.of_rounds {x : Expr} (h : x.rounds = 1) (hwithin : ∀ y ∈ x.children, Shallow y) :
    Shallow x :=
  .of (h ▸ by decide) hwithin

theorem Shallow.height_le {t : Condition} (h : t.toExpr.Shallow) : t.height ≤ maxDepth :=
  t.rounds_toExpr ▸ h.rounds_le

/-- Shallow, and read at the depth `D` if it takes several rounds: then the deepest node, at `n`, is
below. -/
structure Stands (D n : Nat) (x : Expr) : Prop where
  shallow : x.Shallow
  rounds : x.rounds = 1 ∨ D + x.rounds ≤ n

end Expr

def Decl.Shallow (d : Decl) : Prop := ∀ x ∈ d.children, x.Shallow

namespace Expr.Stands

variable {D n m : Nat} {x y : Expr}

theorem mono (h : Stands D n x) (hle : n ≤ m) : Stands D m x :=
  ⟨h.shallow, h.rounds.imp_right (Nat.le_trans · hle)⟩

theorem above (h : Stands (D + 1) n x) : Stands D n x := ⟨h.shallow, h.rounds.imp_right (by omega)⟩

theorem single (h : x.rounds = 1) (hwithin : ∀ y ∈ x.children, y.Shallow) : Stands D n x :=
  ⟨.of_rounds h hwithin, .inl h⟩

theorem leaf (h : x.rounds = 1) (hc : x.children = []) : Stands D n x := .single h (by simp [hc])

/-- The operands of a unification: on the right, only one from further in takes several rounds. -/
theorem unify (hx : Stands D n x) (hn : D < n) (hy : Stands (D + 1) m y) (hnm : n + 1 ≤ m)
    (hm : m ≤ maxDepth) : Stands D m (.binary .unify x y) := by
  have hrounds : D + (max x.rounds y.rounds + 1) ≤ m := by
    have hleft := hx.rounds
    have hright := hy.rounds
    omega
  refine ⟨.of (Nat.le_trans (Nat.le_trans (Nat.le_add_left _ D) hrounds) hm) ?_, .inr hrounds⟩
  simp only [children, List.mem_cons, List.not_mem_nil, or_false, forall_eq_or_imp, forall_eq]
  exact ⟨hx.shallow, hy.shallow⟩

end Expr.Stands

namespace Parser

open Reader SchemaMock.Expr

variable {lv : Level} {d : Nat}

instance (token : Token) : Flat (labelOf token) := by
  unfold labelOf
  infer_instance

instance : Flat isLabelStart := by
  unfold isLabelStart
  infer_instance

instance : Flat isPatternStart := ⟨fun h => by cases h; rfl⟩

structure Level.Sound (lv : Level) : Prop where
  depth : lv.depth ≤ maxDepth
  decl : ∀ d, Deepens lv.decl (fun _ x => x.Shallow) d
  unary : ∀ d, Deepens lv.unary (fun n x => Stands (lv.depth + 1) n x ∧ lv.depth < n) d

theorem rounds_binary {op : BinaryOp} (h : op ≠ .unify) (x y : Expr) :
    (Expr.binary op x y).rounds = 1 := by
  cases op <;> first | rfl | exact absurd rfl h

/-- What is read at a depth. If `&` binds too loosely to be read there, several rounds come from
further in. -/
structure Operand (D least n : Nat) (x : Expr) : Prop where
  stands : Stands D n x
  lt : D < n
  further : BinaryOp.unify.precedence < least → Stands (D + 1) n x

theorem Operand.of {D least n : Nat} {x : Expr} (h : Stands (D + 1) n x ∧ D < n) :
    Operand D least n x :=
  ⟨h.1.above, h.2, fun _ => h.1⟩

theorem Operand.mono {D least n m : Nat} {x : Expr} (h : Operand D least n x) (hle : n ≤ m) :
    Operand D least m x :=
  ⟨h.stands.mono hle, Nat.lt_of_lt_of_le h.lt hle, fun hleast => (h.further hleast).mono hle⟩

theorem Operand.binary {D least n m : Nat} {op : BinaryOp} {x y : Expr} (hx : Operand D least n x)
    (hleast : ¬ op.precedence < least) (hy : Operand D (op.precedence + 1) m y) (hnm : n + 1 ≤ m)
    (hm : m ≤ maxDepth) : Operand D least m (.binary op x y) := by
  have hlt : D < m := Nat.lt_of_lt_of_le hx.lt (Nat.le_of_succ_le hnm)
  by_cases hop : op = .unify
  · subst hop
    exact ⟨hx.stands.unify hx.lt (hy.further (Nat.lt_succ_self _)) hnm hm, hlt,
      fun h => absurd h hleast⟩
  · have hparts : ∀ z ∈ (Expr.binary op x y).children, z.Shallow := by
      simp only [children, List.mem_cons, List.not_mem_nil, or_false, forall_eq_or_imp, forall_eq]
      exact ⟨hx.stands.shallow, hy.stands.shallow⟩
    exact ⟨.single (rounds_binary hop x y) hparts, hlt,
      fun _ => .single (rounds_binary hop x y) hparts⟩

theorem deepens_binary (h : lv.Sound) (rounds least d : Nat) :
    Deepens (binary lv rounds least) (Operand lv.depth least) d := by
  induction rounds generalizing least d with
  | zero => exact (h.unary d).mono fun n x _ _ hx => .of hx
  | succ rounds ih =>
    rw [Parser.binary]
    refine .subtree (.bind (h.unary _) fun n first _ _ hfirst => ?_) h.depth
      fun m n x hle hx => hx.mono hle
    refine .loop (I := Operand lv.depth least) (.of hfirst) fun n lhs _ _ hlhs =>
      .after fun token => ?_
    split
    case h_1 => exact .pure hlhs
    case h_2 op =>
      split
      case isTrue => exact .pure hlhs
      case isFalse hleast =>
        refine .bind .wrap fun m _ _ _ hnm => .after fun _ => .after fun _ => ?_
        exact .bind (ih _ m) fun k rhs hmk hk hrhs =>
          .pure (hlhs.binary hleast hrhs (Nat.le_trans hnm hmk) hk)

theorem deepens_expr (h : lv.Sound) (d : Nat) : Deepens (expr lv) (Stands lv.depth) d :=
  (deepens_binary h 8 1 d).mono fun _ _ _ _ hx => hx.stands

theorem deepens_expr_shallow (h : lv.Sound) (d : Nat) :
    Deepens (expr lv) (fun _ x => x.Shallow) d :=
  (deepens_expr h d).mono fun _ _ _ _ hx => hx.shallow

/-! ## Declarations -/

theorem shallow_struct {ds : List Decl} (h : ∀ d ∈ ds, d.Shallow) : (Expr.struct ds).Shallow := by
  refine .of_rounds rfl fun x hx => ?_
  obtain ⟨e, he, hx⟩ := List.mem_flatMap.mp hx
  exact h e he x hx

theorem deepens_field (h : lv.Sound) (d : Nat) : Deepens (field lv) (fun _ x => x.Shallow) d := by
  have hone {label : Label} {optional : Bool} {x : Expr} (hx : x.Shallow) :
      (Decl.field label optional x).Shallow :=
    List.forall_mem_singleton.mpr hx
  unfold field
  refine .after fun _ => .after fun _ => .after fun _ => .after fun _ =>
    .after fun _ => .after fun _ => ?_
  split
  · exact .bind (h.decl d) fun _ x _ _ hx =>
      .pure (hone (shallow_struct (List.forall_mem_singleton.mpr hx)))
  · exact .bind (deepens_expr_shallow h d) fun _ x _ _ hx => .pure (hone hx)

theorem deepens_declBody (h : lv.Sound) (d : Nat) :
    Deepens (declBody lv) (fun _ x => x.Shallow) d := by
  unfold declBody
  refine .after fun token => ?_
  split
  · exact .after fun _ => .pure (List.forall_mem_nil _)
  · refine .after fun _ => .after fun _ =>
      .bind (deepens_expr_shallow h d) fun n label _ _ hlabel => ?_
    refine .after fun _ => .after fun _ => .after fun _ =>
      .bind (deepens_expr_shallow h n) fun _ x _ _ hx => ?_
    exact .pure (List.forall_mem_cons.mpr ⟨hlabel, List.forall_mem_singleton.mpr hx⟩)
  · refine .after fun starts => ?_
    split
    · exact deepens_field h d
    · exact .bind (deepens_expr_shallow h d) fun _ x _ _ hx =>
        .pure (List.forall_mem_singleton.mpr hx)

theorem deepens_decls (h : lv.Sound) (stop : TokenKind) (d : Nat) :
    Deepens (decls lv stop) (fun _ ds => ∀ x ∈ ds, x.Shallow) d := by
  unfold decls
  refine .loop (I := fun _ ds => ∀ x ∈ ds, x.Shallow) (List.forall_mem_nil Decl.Shallow)
    fun n done _ _ hdone => ?_
  refine .after fun _ => .after fun stopped => ?_
  split
  · exact .pure fun y hy => hdone y (List.mem_reverse.mp hy)
  · refine .bind (h.decl n) fun m x _ _ hx => .after fun token => ?_
    have hmore : ∀ y ∈ x :: done, y.Shallow := List.forall_mem_cons.mpr ⟨hx, hdone⟩
    dsimp only
    split
    · exact .pure hmore
    · split
      · exact .pure fun y hy => hmore y (List.mem_reverse.mp hy)
      · exact .unexpected _

/-! ## Operands -/

theorem deepens_commaItem (h : lv.Sound) {done : List Expr}
    (hdone : ∀ x ∈ done, x.Shallow) (d : Nat) : Deepens (commaItem lv done)
      (fun _ => Turn.After (fun xs => ∀ x ∈ xs, x.Shallow) fun xs => ∀ x ∈ xs, x.Shallow) d := by
  unfold commaItem
  refine .bind (deepens_expr_shallow h d) fun n x _ _ hx => .after fun _ => .after fun comma => ?_
  have hmore : ∀ y ∈ x :: done, y.Shallow := List.forall_mem_cons.mpr ⟨hx, hdone⟩
  split
  · exact .after fun _ => .pure hmore
  · exact .pure fun y hy => hmore y (List.mem_reverse.mp hy)

theorem deepens_arguments (h : lv.Sound) (d : Nat) :
    Deepens (arguments lv) (fun _ xs => ∀ x ∈ xs, x.Shallow) d := by
  unfold arguments
  refine .loop (I := fun _ xs => ∀ x ∈ xs, x.Shallow) (List.forall_mem_nil Expr.Shallow)
    fun n done _ _ hdone => ?_
  refine .after fun closed => ?_
  split
  · exact .pure fun x hx => hdone x (List.mem_reverse.mp hx)
  · exact deepens_commaItem h hdone n

theorem deepens_listTail (h : lv.Sound) (d : Nat) :
    Deepens (listTail lv) (fun _ x => x.Shallow) d := by
  have hrest {x : Expr} (hx : x.Shallow) {n : Nat} : Deepens (do
      skipNewlines
      let _ ← eat .comma
      skipNewlines
      return x) (fun _ x => x.Shallow) n := .after fun _ => .after fun _ => .after fun _ => .pure hx
  unfold listTail
  refine .after fun token => ?_
  dsimp only
  split
  · exact hrest (.of_rounds rfl (by simp [children]))
  · exact .bind (deepens_expr_shallow h d) fun n x _ _ hx => hrest hx

theorem deepens_listItems (h : lv.Sound) (d : Nat) :
    Deepens (listItems lv) (fun _ items => ∀ x ∈ items.1 ++ items.2.toList, x.Shallow) d := by
  unfold listItems
  refine .loop (I := fun _ xs => ∀ x ∈ xs, x.Shallow) (List.forall_mem_nil Expr.Shallow)
    fun n done _ _ hdone => ?_
  refine .after fun closed => ?_
  split
  · refine .pure fun x hx => hdone x (List.mem_reverse.mp ?_)
    simpa using hx
  · refine .after fun open_ => ?_
    split
    · refine .bind (deepens_listTail h n) fun m tail _ _ htail => .pure fun x hx => ?_
      rcases List.mem_append.mp hx with hx | hx
      · exact hdone x (List.mem_reverse.mp hx)
      · rwa [Option.mem_toList.mp hx |> Option.some.inj] at htail
    · refine .bind (deepens_commaItem h hdone n) fun m t _ _ ht => ?_
      cases t with
      | again xs => exact .pure ht
      | done xs => exact .pure (by simpa [Turn.After] using ht)

theorem deepens_primary (h : lv.Sound) (d : Nat) : Deepens (primary lv) (Stands lv.depth) d := by
  unfold primary
  refine .after fun token => ?_
  dsimp only
  split
  case h_10 =>
    refine .after fun _ => .bind (deepens_decls h _ d) fun n ds _ _ hds => .after fun _ => .pure ?_
    exact ⟨shallow_struct hds, .inl rfl⟩
  case h_11 =>
    refine .after fun _ => .after fun _ =>
      .bind (deepens_listItems h d) fun n items _ _ hitems => ?_
    exact .after fun _ => .pure (.single rfl hitems)
  case h_12 =>
    refine .after fun _ => .after fun _ => .bind (deepens_expr h d) fun n x _ _ hx => ?_
    exact .after fun _ => .after fun _ => .pure hx
  case h_13 => exact .unexpected _
  case h_1 | h_3 => exact .after fun _ => .after fun _ => .pure (.leaf rfl rfl)
  case h_8 =>
    refine .after fun _ => .pure ?_
    split <;> exact .leaf rfl rfl
  all_goals exact .after fun _ => .pure (.leaf rfl rfl)

theorem deepens_postfixTurn (h : lv.Sound) {x : Expr} (hx : Stands lv.depth d x) :
    Deepens (postfixTurn lv x) (fun n => Turn.After (Stands lv.depth n) (Stands lv.depth n)) d := by
  unfold postfixTurn
  refine .after fun token => ?_
  split
  · refine .bind .wrap fun n _ _ _ _ => .after fun _ => .after fun label => ?_
    split
    · exact .after fun _ => .after fun _ =>
        .pure (.single rfl (List.forall_mem_singleton.mpr hx.shallow))
    · exact .unexpected _
  · refine .bind .wrap fun n _ _ _ _ => .after fun _ => .after fun _ => ?_
    refine .bind (deepens_expr_shallow h n) fun m position _ _ hposition => .after fun _ =>
      .after fun _ => .pure ?_
    exact .single rfl (List.forall_mem_cons.mpr ⟨hx.shallow, List.forall_mem_singleton.mpr hposition⟩)
  · refine .bind .wrap fun n _ _ _ _ => .after fun _ => .after fun _ => ?_
    refine .bind (deepens_arguments h n) fun m args _ _ hargs => .after fun _ => .pure ?_
    exact .single rfl (List.forall_mem_cons.mpr ⟨hx.shallow, hargs⟩)
  · exact .pure hx

theorem deepens_postfixChain (h : lv.Sound) (d : Nat) :
    Deepens (postfixChain lv) (Stands lv.depth) d := by
  unfold postfixChain
  refine .subtree (.bind (deepens_primary h _) fun n x _ _ hx => ?_) h.depth
    fun _ _ _ hle hx => hx.mono hle
  exact .loop (I := Stands lv.depth) hx fun m y _ _ hy => deepens_postfixTurn h hy

theorem shallow_of_prefixOp? {kind : TokenKind} {apply : Expr → Expr}
    (h : prefixOp? kind = some apply) {x : Expr} (hx : x.Shallow) :
    (apply x).Shallow ∧ (apply x).rounds = 1 := by
  unfold prefixOp? at h
  split at h <;> cases h <;> exact ⟨.of_rounds rfl (List.forall_mem_singleton.mpr hx), rfl⟩

theorem deepens_unaryBody (h : lv.Sound) (d : Nat) :
    Deepens (unaryBody lv) (Stands lv.depth) d := by
  unfold unaryBody
  refine .after fun token => ?_
  split
  case h_1 apply happly =>
    refine .after fun _ => .bind (h.unary d) fun n x _ _ hx => .pure ?_
    obtain ⟨hshallow, hrounds⟩ := shallow_of_prefixOp? happly hx.1.shallow
    exact ⟨hshallow, .inl hrounds⟩
  case h_2 => exact deepens_postfixChain h d

/-! ## Levels -/

theorem depth_level {left : Nat} : (level left).depth = maxNesting - left := by
  cases left <;> rfl

theorem sound_level {left : Nat} (hleft : left ≤ maxNesting) : (level left).Sound := by
  induction left with
  | zero => exact ⟨by decide, fun d => .fail _, fun d => .fail _⟩
  | succ left ih =>
    have hbelow := ih (Nat.le_of_succ_le hleft)
    have hdepth : (level left).depth = (level (left + 1)).depth + 1 := by
      rw [depth_level, depth_level]
      omega
    refine ⟨?_, fun d => ?_, fun d => ?_⟩
    · rw [depth_level]
      exact Nat.le_trans (Nat.sub_le _ _) (by decide)
    · exact .bind (.reach _) fun n _ _ _ _ => deepens_declBody hbelow n
    · rw [← hdepth]
      refine .bind (.reach _) fun n _ _ _ hn =>
        (deepens_unaryBody hbelow n).mono fun m x hnm _ hx => ⟨hx, ?_⟩
      rw [hdepth] at hn
      exact Nat.le_trans hn hnm

/-! ## Files -/

instance : Flat importClause := by
  unfold importClause
  infer_instance

instance : Flat imports := by
  unfold imports
  infer_instance

instance : Flat packageClause := by
  unfold packageClause
  infer_instance

theorem deepens_file (d : Nat) : Deepens file (fun _ f => ∀ x ∈ f.decls, x.Shallow) d := by
  unfold file
  refine .after fun _ => .after fun _ => .after fun _ => ?_
  exact .bind (deepens_decls (sound_level (Nat.le_refl _)) _ d) fun _ ds _ _ hds => .pure hds

end Parser

theorem SchemaFile.shallow_of_parse {text : String} {f : SchemaFile}
    (h : SchemaFile.parse text = .ok f) : ∀ d ∈ f.decls, d.Shallow := by
  obtain ⟨tokens, -, h⟩ := Except.exists_of_bind_eq_ok h
  obtain ⟨⟨g, c⟩, hread, h⟩ := Except.exists_of_bind_eq_ok h
  cases h
  refine (Parser.deepens_file _ _ f c rfl ?_ hread).2.2
  cases tokens <;> exact Nat.zero_le _

end SchemaMock
