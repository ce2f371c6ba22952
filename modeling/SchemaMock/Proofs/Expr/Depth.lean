import Mathlib.Order.MinMax
import SchemaMock.Proofs.Expr.Rounds
import SchemaMock.Proofs.Token.Run

/-! # The depth of a tree that is read

The right operand of an operator is read with a count of its own, which begins where that of the
operator began. So each of the seven precedences may add a node that is not counted, on every level,
and no more.
-/

namespace SchemaMock

mutual

/-- The greatest weight on a way from this expression down to one within. -/
def Expr.height (w : Expr → Nat) : Expr → Nat
  | .struct ds => heightDecls w ds + w (.struct ds)
  | .list xs t => max (heightAll w xs) (heightTail w t) + w (.list xs t)
  | .select x l => x.height w + w (.select x l)
  | .index x y => max (x.height w) (y.height w) + w (.index x y)
  | .call x xs => max (x.height w) (heightAll w xs) + w (.call x xs)
  | .unary op x => x.height w + w (.unary op x)
  | .binary op x y => max (x.height w) (y.height w) + w (.binary op x y)
  | .marked x => x.height w + w (.marked x)
  | x => w x

def Decl.height (w : Expr → Nat) : Decl → Nat
  | .field _ _ x => x.height w
  | .pattern x y => max (x.height w) (y.height w)
  | .ellipsis => 0
  | .embed x => x.height w

def heightAll (w : Expr → Nat) : List Expr → Nat
  | [] => 0
  | x :: xs => max (x.height w) (heightAll w xs)

def heightTail (w : Expr → Nat) : Option Expr → Nat
  | none => 0
  | some x => x.height w

def heightDecls (w : Expr → Nat) : List Decl → Nat
  | [] => 0
  | d :: ds => max (d.height w) (heightDecls w ds)

end

/-- The number of expressions from this one down to the furthest within. -/
def Expr.depth (x : Expr) : Nat := x.height fun _ => 1

section Height

variable {w : Expr → Nat} {n : Nat}

theorem heightAll_le_iff {xs : List Expr} : heightAll w xs ≤ n ↔ ∀ x ∈ xs, x.height w ≤ n := by
  induction xs with
  | nil => simp [heightAll]
  | cons x xs ih => rw [heightAll, Nat.max_le, ih, List.forall_mem_cons]

theorem heightTail_le_iff {t : Option Expr} :
    heightTail w t ≤ n ↔ ∀ x ∈ t.toList, x.height w ≤ n := by
  cases t <;> simp [heightTail]

theorem Decl.height_le_iff {d : Decl} : d.height w ≤ n ↔ ∀ x ∈ d.children, x.height w ≤ n := by
  cases d <;> simp [Decl.height, Decl.children]

theorem heightDecls_le_iff {ds : List Decl} :
    heightDecls w ds ≤ n ↔ ∀ x ∈ ds.flatMap Decl.children, x.height w ≤ n := by
  induction ds with
  | nil => simp [heightDecls]
  | cons d ds ih =>
    rw [heightDecls, Nat.max_le, ih, Decl.height_le_iff, List.flatMap_cons, List.forall_mem_append]

/-- An expression weighs its own weight more than the heaviest it is made of. -/
theorem Expr.height_le_iff {x : Expr} :
    x.height w ≤ n + w x ↔ ∀ y ∈ x.children, y.height w ≤ n := by
  cases x <;>
    simp [height, children, heightAll_le_iff, heightTail_le_iff, heightDecls_le_iff,
      or_imp, forall_and]

theorem Expr.weight_le_height {x : Expr} : w x ≤ x.height w := by
  cases x <;> simp [height]

theorem Expr.height_add_le {x y : Expr} (hy : y ∈ x.children) : y.height w + w x ≤ x.height w := by
  obtain ⟨n, hn⟩ := Nat.exists_eq_add_of_le' (weight_le_height (w := w) (x := x))
  rw [hn]
  exact Nat.add_le_add_right (height_le_iff.mp (Nat.le_of_eq hn) y hy) _

end Height

theorem Expr.depth_le_succ_iff {x : Expr} {n : Nat} :
    x.depth ≤ n + 1 ↔ ∀ y ∈ x.children, y.depth ≤ n := height_le_iff

/-- From the depth `D` the expression goes down to the count `n`, but for `s` nodes. -/
def Expr.Fits (D s n : Nat) (x : Expr) : Prop := D + x.depth ≤ n + s

namespace Expr.Fits

variable {D s n m : Nat} {x y : Expr}

theorem mono (h : Fits D s n x) (hle : n ≤ m) : Fits D s m x :=
  Nat.le_trans h (Nat.add_le_add_right hle s)

theorem node (hD : D ≤ n) (h : ∀ y ∈ x.children, Fits D s n y) : Fits D (s + 1) n x := by
  have hdepth : x.depth ≤ (n + s - D) + 1 := depth_le_succ_iff.mpr fun y hy => by
    have := h y hy
    unfold Fits at this
    omega
  unfold Fits
  omega

end Expr.Fits

namespace Parser

open Reader SchemaMock.Expr

variable {lv : Level} {s d : Nat}

/-- What the readers of a level give; an expression of the level may have `s` nodes that are not
counted. -/
structure Level.Spares (lv : Level) (s : Nat) : Prop where
  depth : lv.depth ≤ maxDepth
  decl : ∀ d, Deepens lv.decl (fun n x => lv.depth < n ∧ ∀ y ∈ x.children,
    lv.depth + y.depth < n + s) d
  unary : ∀ d, Deepens lv.unary (fun n x => lv.depth < n ∧ lv.depth + x.depth + 7 ≤ n + s) d

theorem fits_binary (h : lv.Spares s) (rounds : Nat) {least : Nat} (hleast : least ≤ 8) (d : Nat) :
    Deepens (binary lv rounds least) (fun n x => lv.depth + x.depth + least ≤ n + s + 1) d := by
  induction rounds generalizing least d with
  | zero => exact (h.unary d).mono fun n x _ _ hx => by omega
  | succ rounds ih =>
    rw [Parser.binary]
    refine .subtree (.bind (h.unary _) fun n first _ _ hfirst => ?_) h.depth fun _ _ _ _ _ => by
      omega
    refine .loop (I := fun n x => lv.depth + x.depth + least ≤ n + s + 1) (by omega)
      fun n lhs _ _ hlhs => ?_
    refine .after fun token => ?_
    split
    case h_1 => exact .pure hlhs
    case h_2 op _ =>
      split
      case isTrue => exact .pure hlhs
      case isFalse htight =>
        have hop : op.precedence + 1 ≤ 8 := by cases op <;> decide
        refine .bind .wrap fun m _ _ _ hnm => .after fun _ => .after fun _ => ?_
        refine .bind (ih hop m) fun k rhs hmk hk hrhs => .pure ?_
        show lv.depth + (max lhs.depth rhs.depth + 1) + least ≤ k + s + 1
        omega

theorem fits_expr (h : lv.Spares s) (d : Nat) : Deepens (expr lv) (Fits lv.depth s) d :=
  (fits_binary h 8 (by decide) d).mono fun n x _ _ hx => by
    unfold Fits
    omega

/-! ## Declarations -/

theorem fits_field (h : lv.Spares s) (d : Nat) :
    Deepens (field lv) (fun n x => ∀ y ∈ x.children, Fits lv.depth s n y) d := by
  unfold field
  refine .after fun _ => .after fun _ => .after fun _ => .after fun _ =>
    .after fun _ => .after fun _ => ?_
  split
  · refine .bind (h.decl d) fun n x _ _ ⟨hn, hx⟩ => .pure (List.forall_mem_singleton.mpr ?_)
    have hdepth : (Expr.struct [x]).depth ≤ (n + s - lv.depth - 1) + 1 :=
      depth_le_succ_iff.mpr fun y hy => by
      have := hx y (by simpa [children] using hy)
      omega
    unfold Fits
    omega
  · exact .bind (fits_expr h d) fun _ x _ _ hx => .pure (List.forall_mem_singleton.mpr hx)

theorem fits_declBody (h : lv.Spares s) (d : Nat) :
    Deepens (declBody lv) (fun n x => ∀ y ∈ x.children, Fits lv.depth s n y) d := by
  unfold declBody
  refine .after fun token => ?_
  split
  · exact .after fun _ => .pure (List.forall_mem_nil _)
  · refine .after fun _ => .after fun _ => .bind (fits_expr h d) fun n label _ _ hlabel => ?_
    refine .after fun _ => .after fun _ => .after fun _ =>
      .bind (fits_expr h n) fun m x hnm _ hx => ?_
    exact .pure (List.forall_mem_cons.mpr ⟨hlabel.mono hnm, List.forall_mem_singleton.mpr hx⟩)
  · refine .after fun starts => ?_
    split
    · exact fits_field h d
    · exact .bind (fits_expr h d) fun _ x _ _ hx => .pure (List.forall_mem_singleton.mpr hx)

theorem fits_decls (h : lv.Spares s) (stop : TokenKind) (d : Nat) :
    Deepens (decls lv stop) (fun n ds => ∀ x ∈ ds.flatMap Decl.children, Fits lv.depth s n x)
      d := by
  let I (n : Nat) (ds : List Decl) : Prop := ∀ x ∈ ds, ∀ y ∈ x.children, Fits lv.depth s n y
  have hreverse {n : Nat} {ds : List Decl} (h : I n ds) :
      ∀ x ∈ ds.reverse.flatMap Decl.children, Fits lv.depth s n x := by
    intro x hx
    obtain ⟨d, hd, hx⟩ := List.mem_flatMap.mp hx
    exact h d (List.mem_reverse.mp hd) x hx
  unfold decls
  refine .loop (I := I) (List.forall_mem_nil _) fun n done _ _ hdone => .after fun _ =>
    .after fun stopped => ?_
  split
  · exact .pure (hreverse hdone)
  · refine .bind (h.decl n) fun m x hnm _ ⟨_, hx⟩ => .after fun token => ?_
    have hmore : I m (x :: done) := List.forall_mem_cons.mpr
      ⟨fun y hy => Nat.le_of_lt (hx y hy), fun d hd y hy => (hdone d hd y hy).mono hnm⟩
    dsimp only
    split
    · exact .pure hmore
    · split
      · exact .pure (hreverse hmore)
      · exact .unexpected _

/-! ## Operands -/

theorem fits_commaItem (h : lv.Spares s) {done : List Expr} {d : Nat}
    (hdone : ∀ x ∈ done, Fits lv.depth s d x) : Deepens (commaItem lv done)
      (fun n => Turn.After (fun xs => ∀ x ∈ xs, Fits lv.depth s n x) fun xs => ∀ x ∈ xs, Fits lv.depth s n x) d := by
  unfold commaItem
  refine .bind (fits_expr h d) fun n x hle _ hx => .after fun _ => .after fun comma => ?_
  have hmore : ∀ y ∈ x :: done, Fits lv.depth s n y :=
    List.forall_mem_cons.mpr ⟨hx, fun y hy => (hdone y hy).mono hle⟩
  split
  · exact .after fun _ => .pure hmore
  · exact .pure fun y hy => hmore y (List.mem_reverse.mp hy)

theorem fits_arguments (h : lv.Spares s) (d : Nat) :
    Deepens (arguments lv) (fun n xs => ∀ x ∈ xs, Fits lv.depth s n x) d := by
  unfold arguments
  refine .loop (I := fun n xs => ∀ x ∈ xs, Fits lv.depth s n x) (List.forall_mem_nil _)
    fun n done _ _ hdone => ?_
  refine .after fun closed => ?_
  split
  · exact .pure fun x hx => hdone x (List.mem_reverse.mp hx)
  · exact fits_commaItem h hdone

/-- An open list without an expression for its tail has a node for it that is read nowhere. -/
theorem fits_listTail (h : lv.Spares s) (hd : lv.depth < d + s) :
    Deepens (listTail lv) (Fits lv.depth s) d := by
  have hrest {x : Expr} {n : Nat} (hx : Fits lv.depth s n x) : Deepens (do
      skipNewlines
      let _ ← eat .comma
      skipNewlines
      return x) (Fits lv.depth s) n := .after fun _ => .after fun _ => .after fun _ => .pure hx
  unfold listTail
  refine .after fun token => ?_
  dsimp only
  split
  · exact hrest hd
  · exact .bind (fits_expr h d) fun n x _ _ hx => hrest hx

theorem fits_listItems (h : lv.Spares s) (hd : lv.depth < d + s) :
    Deepens (listItems lv) (fun n items => ∀ x ∈ items.1 ++ items.2.toList, Fits lv.depth s n x)
      d := by
  unfold listItems
  refine .loop (I := fun n xs => ∀ x ∈ xs, Fits lv.depth s n x) (List.forall_mem_nil _)
    fun n done hdn _ hdone => ?_
  refine .after fun closed => ?_
  split
  · refine .pure fun x hx => hdone x (List.mem_reverse.mp ?_)
    simpa using hx
  · refine .after fun open_ => ?_
    split
    · refine .bind (fits_listTail h (by omega)) fun m tail hnm _ htail => .pure fun x hx => ?_
      rcases List.mem_append.mp hx with hx | hx
      · exact (hdone x (List.mem_reverse.mp hx)).mono hnm
      · rwa [Option.mem_toList.mp hx |> Option.some.inj] at htail
    · refine .bind (fits_commaItem h hdone) fun m t _ _ ht => ?_
      cases t with
      | again xs => exact .pure ht
      | done xs => exact .pure (by simpa [Turn.After] using ht)

theorem fits_primary (h : lv.Spares s) (hs : 0 < s) (hd : lv.depth ≤ d) :
    Deepens (primary lv) (Fits lv.depth (s + 1)) d := by
  have hleaf {x : Expr} (hx : x.depth = 1) : Fits lv.depth (s + 1) d x := by
    unfold Fits
    omega
  unfold primary
  refine .after fun token => ?_
  dsimp only
  split
  case h_10 =>
    refine .after fun _ => .bind (fits_decls h _ d) fun n ds hle _ hds => .after fun _ => .pure ?_
    exact .node (Nat.le_trans hd hle) hds
  case h_11 =>
    refine .after fun _ => .after fun _ =>
      .bind (fits_listItems h (by omega)) fun n items hle _ hitems => ?_
    exact .after fun _ => .pure (.node (Nat.le_trans hd hle) hitems)
  case h_12 =>
    refine .after fun _ => .after fun _ => .bind (fits_expr h d) fun n x _ _ hx => ?_
    exact .after fun _ => .after fun _ => .pure (Nat.le_succ_of_le hx)
  case h_13 => exact .unexpected _
  case h_1 | h_3 => exact .after fun _ => .after fun _ => .pure (hleaf rfl)
  case h_8 =>
    refine .after fun _ => .pure ?_
    split <;> exact hleaf rfl
  all_goals exact .after fun _ => .pure (hleaf rfl)

theorem fits_postfixTurn (h : lv.Spares s) (hd : lv.depth ≤ d) {x : Expr}
    (hx : Fits lv.depth (s + 1) d x) : Deepens (postfixTurn lv x)
      (fun n => Turn.After (Fits lv.depth (s + 1) n) (Fits lv.depth (s + 1) n)) d := by
  -- what has been read is one node further from the count once this has been raised
  have hbase {n : Nat} (hn : d + 1 ≤ n) : Fits lv.depth s n x := by
    unfold Fits at hx ⊢
    omega
  have hdepth {n : Nat} (hn : d + 1 ≤ n) : lv.depth ≤ n := by omega
  unfold postfixTurn
  refine .after fun token => ?_
  split
  · refine .bind .wrap fun n _ _ _ hn => .after fun _ => .after fun label => ?_
    split
    · exact .after fun _ => .after fun _ =>
        .pure (.node (hdepth hn) (List.forall_mem_singleton.mpr (hbase hn)))
    · exact .unexpected _
  · refine .bind .wrap fun n _ _ _ hn => .after fun _ => .after fun _ => ?_
    refine .bind (fits_expr h n) fun m position hnm _ hposition => .after fun _ =>
      .after fun _ => .pure ?_
    have hm := Nat.le_trans hn hnm
    exact .node (hdepth hm) (List.forall_mem_cons.mpr ⟨hbase hm, List.forall_mem_singleton.mpr hposition⟩)
  · refine .bind .wrap fun n _ _ _ hn => .after fun _ => .after fun _ => ?_
    refine .bind (fits_arguments h n) fun m args hnm _ hargs => .after fun _ => .pure ?_
    have hm := Nat.le_trans hn hnm
    exact .node (hdepth hm) (List.forall_mem_cons.mpr ⟨hbase hm, hargs⟩)
  · exact .pure hx

theorem fits_postfixChain (h : lv.Spares s) (hs : 0 < s) (d : Nat) :
    Deepens (postfixChain lv) (Fits lv.depth (s + 1)) d := by
  unfold postfixChain
  refine .subtree (.bind (fits_primary h hs (Nat.le_refl _)) fun n x hn _ hx => ?_) h.depth
    fun _ _ _ hle hx => hx.mono hle
  exact .loop (I := Fits lv.depth (s + 1)) hx fun m y hnm _ hy =>
    fits_postfixTurn h (Nat.le_trans hn hnm) hy

theorem depth_of_prefixOp? {kind : TokenKind} {apply : Expr → Expr}
    (h : prefixOp? kind = some apply) (x : Expr) :
    (apply x).depth = x.depth + 1 := by
  unfold prefixOp? at h
  split at h <;> cases h <;> rfl

theorem fits_unaryBody (h : lv.Spares s) (hs : 0 < s) (d : Nat) :
    Deepens (unaryBody lv) (Fits lv.depth (s + 1)) d := by
  unfold unaryBody
  refine .after fun token => ?_
  split
  case h_1 apply happly =>
    refine .after fun _ => .bind (h.unary d) fun n x _ _ ⟨_, hx⟩ => .pure ?_
    unfold Fits
    rw [depth_of_prefixOp? happly]
    omega
  case h_2 => exact fits_postfixChain h hs d

/-! ## Levels -/

theorem spares_level {left : Nat} (hleft : left ≤ maxNesting) :
    (level left).Spares (7 * left + 1) := by
  induction left with
  | zero => exact ⟨by decide, fun d => .fail _, fun d => .fail _⟩
  | succ left ih =>
    have hbelow := ih (Nat.le_of_succ_le hleft)
    have hdepth : (level left).depth = (level (left + 1)).depth + 1 := by
      rw [depth_level, depth_level]
      omega
    refine ⟨?_, fun d => ?_, fun d => ?_⟩
    · rw [depth_level]
      exact Nat.le_trans (Nat.sub_le _ _) (by decide)
    · refine .bind (.reach _) fun n _ _ _ hn =>
        (fits_declBody hbelow n).mono fun m x hnm _ hx => ⟨by omega, ?_⟩
      intro y hy
      have := hx y hy
      unfold Fits at this
      omega
    · refine .bind (.reach _) fun n _ _ _ hn => ?_
      refine (fits_unaryBody hbelow (Nat.succ_pos _) n).mono fun m x hnm _ hx => ⟨by omega, ?_⟩
      unfold Fits at hx
      omega

end Parser

open SchemaMock.Parser Reader

/-- How deep a tree may be that is read: one node for each precedence on each level is not counted,
and the tail of an open list is not. -/
def maxTreeDepth : Nat := maxDepth + 7 * maxNesting + 1

theorem Expr.depth_le_of_parse {text : String} {x : Expr} (h : Expr.parse text = .ok x) :
    x.depth ≤ maxTreeDepth := by
  have hread : Deepens wholeExpr (fun _ x => x.depth ≤ maxTreeDepth) 0 := by
    unfold wholeExpr
    refine .after fun _ =>
      .bind (fits_expr (spares_level (Nat.le_refl maxNesting)) 0) fun n x _ hn hx => ?_
    refine .after fun _ => .after fun _ => .pure ?_
    have hx : (level maxNesting).depth + x.depth ≤ n + (7 * maxNesting + 1) := hx
    unfold maxTreeDepth
    omega
  obtain ⟨ts, c, -, hrun⟩ := run_eq_ok_iff.mp h
  exact (hread _ x c (by cases ts <;> rfl) (Nat.zero_le _) hrun).2.2

theorem SchemaFile.depth_le_of_parse {text : String} {f : SchemaFile}
    (h : SchemaFile.parse text = .ok f) :
    ∀ x ∈ f.decls.flatMap Decl.children, x.depth ≤ maxTreeDepth := by
  have hread :
      Deepens file (fun _ f => ∀ x ∈ f.decls.flatMap Decl.children, x.depth ≤ maxTreeDepth) 0 := by
    unfold file
    refine .after fun _ => .after fun _ => .after fun _ => ?_
    refine .bind (fits_decls (spares_level (Nat.le_refl maxNesting)) _ 0) fun n ds _ hn hds =>
      .pure fun x hx => ?_
    have hx : (level maxNesting).depth + x.depth ≤ n + (7 * maxNesting + 1) := hds x hx
    unfold maxTreeDepth
    omega
  obtain ⟨ts, c, -, hrun⟩ := run_eq_ok_iff.mp h
  exact (hread _ f c (by cases ts <;> rfl) (Nat.zero_le _) hrun).2.2

end SchemaMock
