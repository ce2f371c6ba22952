import Mathlib.Algebra.Order.Group.Nat
import Mathlib.Algebra.Order.Monoid.Prod
import SchemaMock.Proofs.Expr.Depth
import SchemaMock.Proofs.Expr.Newlines

/-! # Room for an expression

How many levels an expression opens, and how deep the tree goes that is read, is bounded by the
brackets of its text and by what nests in its tree. What has been read on one level is read alike on
any other that leaves so much room.
-/

namespace SchemaMock

/-! ## What nests -/

namespace TokenKind

def opensBracket : TokenKind → Bool
  | openParen | openBracket | openBrace => true
  | _ => false

def closesBracket : TokenKind → Bool
  | closeParen | closeBracket | closeBrace => true
  | _ => false

def isBracket (k : TokenKind) : Bool := k.opensBracket || k.closesBracket

end TokenKind

/-- The most brackets that are open at once, counted from where the tokens begin. -/
def openBrackets : List Token → Nat
  | [] => 0
  | t :: ts =>
    if t.kind.opensBracket then openBrackets ts + 1
    else if t.kind.closesBracket then openBrackets ts - 1
    else openBrackets ts

def bracketNesting (text : String) : Nat :=
  match Token.tokenize text with
  | .ok ts => openBrackets ts
  | .error _ => 0

/-- A struct, a sign and a default mark put what they hold one level down, whatever the brackets. -/
def Expr.inset : Expr → Nat
  | .struct _ | .unary .. | .marked _ => 1
  | _ => 0

/-- How many of them stand one inside another. -/
def Expr.nesting (x : Expr) : Nat := x.height inset

/-- At most `b` more brackets are open at once in tokens that come to an end. -/
structure Room (b : Nat) (ts : List Token) : Prop where
  brackets : openBrackets ts ≤ b
  ended : ∃ t ∈ ts.getLast?, t.kind = .eof

namespace Room

variable {b : Nat} {t u : Token} {ts : List Token} {c : Cursor}

theorem tail (h : Room b (t :: u :: ts)) (hk : t.kind.isBracket = false) : Room b (u :: ts) := by
  obtain ⟨hopens, hcloses⟩ := Bool.or_eq_false_iff.mp hk
  have hbrackets := h.brackets
  rw [openBrackets, hopens, hcloses] at hbrackets
  exact ⟨hbrackets, h.ended⟩

theorem drop {p : TokenKind → Bool} (hp : ∀ k, p k = true → k.isBracket = false) (h : Room b ts) :
    Room b (dropFirst p ts) := by
  fun_induction dropFirst p ts
  case case1 t u us hpt ih => exact ih (h.tail (hp _ hpt))
  case case2 => exact h
  case case3 => exact h

theorem next (h : Room b c.tokens) (hk : c.current.kind.isBracket = false) :
    Room b c.next.tokens := by
  obtain ⟨t, ts, n⟩ := c
  cases ts with
  | nil => exact h
  | cons u us => exact h.tail hk

/-- Past any token there is one more bracket to be open at most. -/
theorem next_succ (h : Room b c.tokens) : Room (b + 1) c.next.tokens := by
  obtain ⟨t, ts, n⟩ := c
  cases ts with
  | nil => exact ⟨Nat.le_succ_of_le h.brackets, h.ended⟩
  | cons u us =>
    have hbrackets : openBrackets (t :: u :: us) ≤ b := h.brackets
    refine ⟨?_, h.ended⟩
    show openBrackets (u :: us) ≤ b + 1
    rw [openBrackets] at hbrackets
    split at hbrackets
    · omega
    · split at hbrackets <;> omega

theorem exists_next (h : Room b c.tokens) (hk : c.current.kind.opensBracket = true) :
    ∃ b₀, b = b₀ + 1 ∧ Room b₀ c.next.tokens := by
  obtain ⟨t, ts, n⟩ := c
  cases ts with
  | nil =>
    obtain ⟨_, ht, heof⟩ := h.ended
    cases ht
    replace heof : t.kind = .eof := heof
    replace hk : t.kind.opensBracket = true := hk
    rw [heof] at hk
    cases hk
  | cons u us =>
    have hbrackets : openBrackets (t :: u :: us) ≤ b := h.brackets
    rw [openBrackets, if_pos hk] at hbrackets
    obtain ⟨b₀, rfl⟩ := Nat.exists_eq_add_of_le' (Nat.le_trans (Nat.le_add_left 1 _) hbrackets)
    exact ⟨b₀, rfl, Nat.le_of_succ_le_succ hbrackets, h.ended⟩

end Room

/-! ## What is needed -/

/-- The number of the furthest level, and the depth of the deepest node. -/
abbrev Need := Nat × Nat

def limits : Need := (maxNesting, maxDepth)

/-- What an expression needs `h` levels down, the brackets to come included. -/
def Expr.need (h : Nat) (x : Expr) : Need := (h + x.nesting + 1, h + x.depth)

section Needs

variable {α : Type} {f : α → Need} {m n : Need} {as : List α}

def needs (f : α → Need) (m : Need) (as : List α) : Need := as.foldr (fun a n => f a ⊔ n) m

theorem needs_le_iff : needs f m as ≤ n ↔ m ≤ n ∧ ∀ a ∈ as, f a ≤ n := by
  induction as with
  | nil => exact ⟨fun h => ⟨h, List.forall_mem_nil _⟩, And.left⟩
  | cons a as ih =>
    rw [needs, List.foldr_cons, sup_le_iff, ← needs, ih, List.forall_mem_cons]
    exact and_left_comm

theorem le_needs : m ≤ needs f m as := (needs_le_iff.mp le_rfl).1

theorem le_needs_of_mem {a : α} (h : a ∈ as) : f a ≤ needs f m as := (needs_le_iff.mp le_rfl).2 a h

theorem needs_reverse : needs f m as.reverse = needs f m as :=
  eq_of_forall_ge_iff fun n => by simp only [needs_le_iff, List.mem_reverse]

end Needs

/-- What a declaration needs in a struct `h` levels down; it opens a level itself. -/
def Decl.need (h : Nat) (d : Decl) : Need := needs (Expr.need (h + 1)) (h + 1, h + 1) d.children

namespace Expr

variable {g h : Nat} {x y : Expr}

theorem need_mono (hle : g ≤ h) : x.need g ≤ x.need h :=
  ⟨Nat.add_le_add_right (Nat.add_le_add_right hle _) 1, Nat.add_le_add_right hle _⟩

theorem need_succ : x.need (h + 1) = x.need h + (1, 1) := by
  unfold need
  ext <;> simp only [Prod.fst_add, Prod.snd_add] <;> omega

theorem base_le_need : (h + 1, h + 1) ≤ x.need h :=
  ⟨Nat.add_le_add_right (Nat.le_add_right h _) 1, Nat.add_le_add_left (weight_le_height (w := fun _ => 1)) h⟩

/-- An expression needs more than what it is made of. -/
theorem need_add_le (hy : y ∈ x.children) : y.need h + (x.inset, 1) ≤ x.need h := by
  have hlevels : y.nesting + x.inset ≤ x.nesting := height_add_le hy
  have hnodes : y.depth + 1 ≤ x.depth := height_add_le hy
  unfold need
  constructor <;> simp only [Prod.fst_add, Prod.snd_add] <;> omega

theorem need_node_le (hy : y ∈ x.children) : y.need h + (0, 1) ≤ x.need h :=
  le_trans (add_le_add_right (Prod.mk_le_mk.mpr ⟨Nat.zero_le _, le_rfl⟩) _) (need_add_le hy)

theorem need_le (hy : y ∈ x.children) : y.need h ≤ x.need h := le_trans le_self_add (need_add_le hy)

theorem need_succ_le (hx : x.inset = 1) (hy : y ∈ x.children) : y.need (h + 1) ≤ x.need h := by
  rw [need_succ]
  have hle := need_add_le (h := h) hy
  rwa [hx] at hle

theorem need_decl_le {ds : List Decl} {d : Decl} (hd : d ∈ ds) : d.need h ≤ (struct ds).need h :=
  needs_le_iff.mpr ⟨base_le_need, fun _ hy => need_succ_le rfl (List.mem_flatMap.mpr ⟨d, hd, hy⟩)⟩

end Expr

namespace Reader

variable {α β : Type} {S T : List Token → Prop} {m : Need}

/-! ## Reading again -/

/-- Where `m` was needed so far, the first reader gives an `a` with which `μ a` is needed. With so
much room the second gives the same, whatever count it starts with, and ends with a count for which
there was room. -/
def Repeats (S : List Token → Prop) (m : Need) (S' : α → List Token → Prop) (μ : α → Need)
    (r r' : Reader α) : Prop :=
  ∀ ⦃c a d⦄, S c.tokens → r c = .ok (a, d) → m ≤ μ a ∧ S' a d.tokens ∧
    (μ a ≤ limits → ∀ n ≤ m.2, ∃ n' ≤ (μ a).2,
      r' { c with deepest := n } = .ok (a, { d with deepest := n' }))

def Turn.need (μ : α → Need) (ν : β → Need) : Turn α β → Need
  | .again a => μ a
  | .done b => ν b

/-- The first token is of the kind. -/
def At (S : List Token → Prop) (k : TokenKind) (ts : List Token) : Prop := S ts ∧ Heads (· = k) ts

namespace Repeats

variable {S' : α → List Token → Prop} {T' : β → List Token → Prop} {μ μ' : α → Need} {ν : β → Need}
  {r r' : Reader α}

theorem mono (h : Repeats S m S' μ r r') (hμ : ∀ a, μ a ≤ μ' a) : Repeats S m S' μ' r r' := by
  intro c a d hc hr
  obtain ⟨hm, hd, hrun⟩ := h hc hr
  refine ⟨le_trans hm (hμ a), hd, fun hlimits n hn => ?_⟩
  obtain ⟨n', hn', hr'⟩ := hrun (le_trans (hμ a) hlimits) n hn
  exact ⟨n', le_trans hn' (hμ a).2, hr'⟩

theorem pre (h : Repeats T m S' μ r r') (hS : ∀ ts, S ts → T ts) : Repeats S m S' μ r r' :=
  fun _ _ _ hc => h (hS _ hc)

theorem pure {a : α} (hS : ∀ ts, S ts → S' a ts) (hm : m ≤ μ a) :
    Repeats S m S' μ (Pure.pure a) (Pure.pure a) := by
  intro c b d hc hr
  cases hr
  exact ⟨hm, hS _ hc, fun _ n hn => ⟨n, le_trans hn hm.2, rfl⟩⟩

theorem never (h : ∀ c x, r c ≠ .ok x) : Repeats S m S' μ r r' :=
  fun _ _ _ _ hr => absurd hr (h _ _)

theorem unexpected {what : Expectation} : Repeats S m S' μ (Reader.unexpected what) r' :=
  never fun _ _ => nofun

theorem bind {f f' : α → Reader β} (h : Repeats S m S' μ r r')
    (hf : ∀ a, Repeats (S' a) (μ a) T' ν (f a) (f' a)) :
    Repeats S m T' ν (r >>= f) (r' >>= f') := by
  intro c b e hc hrun
  obtain ⟨a, d, hr, hfa⟩ := bind_eq_ok hrun
  obtain ⟨hm, hd, hfirst⟩ := h hc hr
  obtain ⟨hμ, he, hsecond⟩ := hf a hd hfa
  refine ⟨le_trans hm hμ, he, fun hlimits n hn => ?_⟩
  obtain ⟨n', hn', hr'⟩ := hfirst (le_trans hμ hlimits) n hn
  obtain ⟨n'', hn'', hfa'⟩ := hsecond hlimits n' hn'
  exact ⟨n'', hn'', (bind_of_ok f' hr').trans hfa'⟩

theorem map {f : β → α} {r r' : Reader β} (h : Repeats S m (fun _ => T) (fun _ => m) r r') :
    Repeats S m (fun _ => T) (fun _ => m) (f <$> r) (f <$> r') :=
  h.bind fun b => pure (a := f b) (fun _ => id) le_rfl

/-- A result for which there is never room need not be given again. -/
theorem beyond {r₀ : Reader α} (h : Repeats S m S' μ' r r₀) (hm : ∀ a, m ≤ μ a)
    (hμ : ∀ a, ¬ μ a ≤ limits) : Repeats S m S' μ r r' :=
  fun _ a _ hc hr => ⟨hm a, (h hc hr).2.1, fun hlimits => absurd hlimits (hμ a)⟩

/-- A reader that looks only at the tokens, and leaves the count alone. -/
theorem of_flat (h : ∀ c a d, S c.tokens → r c = .ok (a, d) →
    S' a d.tokens ∧ ∀ n, r' { c with deepest := n } = .ok (a, { d with deepest := n })) :
    Repeats S m S' (fun _ => m) r r' := by
  intro c a d hc hr
  obtain ⟨hd, hrun⟩ := h c a d hc hr
  exact ⟨le_rfl, hd, fun _ n hn => ⟨n, hn, hrun n⟩⟩

/-! ## Depth -/

theorem reach {depth depth' : Nat} :
    Repeats S m (fun _ => S) (fun _ => m ⊔ (0, depth')) (Reader.reach depth)
      (Reader.reach depth') := by
  intro c u d hc hr
  obtain ⟨-, rfl⟩ := reach_eq_ok hr
  refine ⟨le_sup_left, hc, fun hlimits n hn => ?_⟩
  have hdepth : depth' ≤ maxDepth := le_trans le_sup_right hlimits.2
  exact ⟨max n depth', max_le_max hn le_rfl, reach_of_le hdepth⟩

theorem wrap : Repeats S m (fun _ => S) (fun _ => m + (0, 1)) Reader.wrap Reader.wrap := by
  intro c u d hc hr
  obtain ⟨-, rfl⟩ := reach_eq_ok hr
  refine ⟨le_self_add, hc, fun hlimits n hn => ?_⟩
  have hdepth : n + 1 ≤ maxDepth := le_trans (Nat.add_le_add_right hn 1) hlimits.2
  exact ⟨n + 1, Nat.add_le_add_right hn 1, wrap_of_lt hdepth⟩

theorem subtree {depth depth' : Nat} (h : Repeats S (0, depth') S' μ r r') :
    Repeats S m S' (fun a => m ⊔ μ a) (Reader.subtree depth r) (Reader.subtree depth' r') := by
  intro c a d hc hrun
  obtain ⟨s, hr, rfl⟩ := subtree_eq_ok hrun
  have hc : S { c with deepest := depth }.tokens := hc
  obtain ⟨-, hd, hrun⟩ := h hc hr
  refine ⟨le_sup_left, hd, fun hlimits n hn => ?_⟩
  obtain ⟨n', hn', hr'⟩ := hrun (le_trans le_sup_right hlimits) depth' le_rfl
  exact ⟨max n' n, max_le (le_trans hn' le_sup_right) (le_trans hn le_sup_left),
    subtree_of_ok (c := { c with deepest := n }) hr'⟩

/-! ## Repetition -/

theorem loop {turn turn' : α → Reader (Turn α β)}
    (h : ∀ a, Repeats S (μ a) (fun t ts => Turn.After (fun _ => S ts) (T' · ts) t) (Turn.need μ ν) (turn a) (turn' a))
    (a : α) : Repeats S (μ a) T' ν (Reader.loop turn a) (Reader.loop turn' a) := by
  suffices hgo : ∀ k a, Repeats S (μ a) T' ν (loop.go turn k a) (loop.go turn' k a) from
    fun c _ _ hc hr => hgo (c.later.length + 1) a hc hr
  intro k
  induction k with
  | zero => exact fun a => never fun _ _ => nofun
  | succ k ih =>
    refine fun a => bind (h a) fun t => ?_
    cases t with
    | again a => exact ih a
    | done b => exact pure (fun _ => id) le_rfl

/-! ## Tokens -/

variable {b : Nat} {k : TokenKind} {f f' : Token → Reader α}

theorem current (h : ∀ t, Repeats (At S t.kind) m S' μ (f t) (f' t)) :
    Repeats S m S' μ (Reader.current >>= f) (Reader.current >>= f') :=
  fun c _ _ hc hr => h c.current ⟨hc, rfl⟩ hr

theorem of_heads {p : TokenKind → Prop} (h : ∀ k, p k → Repeats (At S k) m S' μ r r') :
    Repeats (fun ts => S ts ∧ Heads p ts) m S' μ r r' :=
  fun c _ _ hc hr => h c.current.kind hc.2 ⟨hc.1, rfl⟩ hr

theorem advance (hk : k.isBracket = false) (h : ∀ t, Repeats (Room b) m S' μ (f t) (f' t)) :
    Repeats (At (Room b) k) m S' μ (Reader.advance >>= f) (Reader.advance >>= f') := by
  refine bind (of_flat fun c t d hc hr => ?_) h
  cases hr
  have hkind : c.current.kind = k := hc.2
  exact ⟨hc.1.next (hkind ▸ hk), fun n => by rw [← Cursor.next_with]; rfl⟩

theorem opening (hk : k.opensBracket = true)
    (h : ∀ b₀, b = b₀ + 1 → ∀ t, Repeats (Room b₀) m S' μ (f t) (f' t)) :
    Repeats (At (Room b) k) m S' μ (Reader.advance >>= f) (Reader.advance >>= f') := by
  intro c a d hc hr
  have hkind : c.current.kind = k := hc.2
  obtain ⟨b₀, hb, hnext⟩ := hc.1.exists_next (hkind ▸ hk)
  obtain ⟨hm, hd, hrun⟩ := h b₀ hb c.current hnext hr
  refine ⟨hm, hd, fun hlimits n hn => ?_⟩
  obtain ⟨n', hn', hr'⟩ := hrun hlimits n hn
  exact ⟨n', hn', by rw [advance_bind, Cursor.next_with]; exact hr'⟩

theorem check : Repeats S m (fun _ => S) (fun _ => m) (Reader.check k) (Reader.check k) :=
  of_flat fun c _ d hc hr => by
    cases hr
    exact ⟨hc, fun _ => rfl⟩

theorem eat (hk : k.isBracket = false) :
    Repeats (Room b) m (fun _ => Room b) (fun _ => m) (Reader.eat k) (Reader.eat k) := by
  refine of_flat fun c yes d hc hr => ?_
  unfold Reader.eat at hr
  split at hr <;> cases hr
  case isTrue hkind =>
    exact ⟨hc.next (hkind ▸ hk), fun n => by rw [← Cursor.next_with]; exact if_pos hkind⟩
  case isFalse hkind => exact ⟨hc, fun n => if_neg hkind⟩

theorem expect_next {b' : Nat}
    (h : ∀ c : Cursor, c.current.kind = k → Room b c.tokens → Room b' c.next.tokens) :
    Repeats (Room b) m (fun _ => Room b') (fun _ => m) (Reader.expect k) (Reader.expect k) := by
  refine of_flat fun c t d hc hr => ?_
  obtain ⟨hkind, rfl, rfl⟩ := expect_eq_ok hr
  exact ⟨h c hkind hc, fun n => by rw [← Cursor.next_with]; exact expect_of_kind hkind⟩

theorem expect (hk : k.isBracket = false) :
    Repeats (Room b) m (fun _ => Room b) (fun _ => m) (Reader.expect k) (Reader.expect k) :=
  expect_next fun _ hkind hc => hc.next (hkind ▸ hk)

theorem closing : Repeats (Room b) m (fun _ => Room (b + 1)) (fun _ => m) (Reader.expect k)
    (Reader.expect k) :=
  expect_next fun _ _ hc => hc.next_succ

theorem skip {p : TokenKind → Bool} (hp : ∀ k, p k = true → k.isBracket = false) :
    Repeats (Room b) m (fun _ => Room b) (fun _ => m) (fun c => .ok ((), c.skip p))
      (fun c => .ok ((), c.skip p)) := by
  refine of_flat fun c u d hc hr => ?_
  cases hr
  refine ⟨?_, fun n => by rw [Cursor.skip_with]⟩
  rw [Cursor.tokens_skip]
  exact hc.drop hp

theorem skipNewlines :
    Repeats (Room b) m (fun _ => Room b) (fun _ => m) Reader.skipNewlines Reader.skipNewlines :=
  skip fun _ hk => beq_iff_eq.mp hk ▸ rfl

theorem skipSeparators :
    Repeats (Room b) m (fun _ => Room b) (fun _ => m) Reader.skipSeparators Reader.skipSeparators :=
  skip fun _ hk => (Bool.or_eq_true_iff.mp hk).elim (beq_iff_eq.mp · ▸ rfl) (beq_iff_eq.mp · ▸ rfl)

theorem ofToken {t : Token} (x : Except SourceFault α) :
    Repeats S m (fun _ => S) (fun _ => m) (Reader.ofToken t x) (Reader.ofToken t x) := by
  cases x with
  | ok a => exact pure (fun _ => id) le_rfl
  | error fault => exact never fun _ _ => nofun

end Repeats

end Reader

namespace Parser

open Reader SchemaMock.Expr

variable {lv lv' : Level} {b g : Nat} {m : Need} {S : List Token → Prop}

/-- What is read `h` levels down, with the brackets to come, once more at the other level. -/
structure Level.Repeats (lv lv' : Level) : Prop where
  decl : ∀ b m, Reader.Repeats (Room b) m (fun _ => Room b) (fun d => m ⊔ d.need (lv'.depth + b))
    lv.decl lv'.decl
  unary : ∀ b m, Reader.Repeats (Room b) m (fun _ => Room b) (fun x => m ⊔ x.need (lv'.depth + b))
    lv.unary lv'.unary

theorem isBracket_of_binaryOp? {k : TokenKind} {op : BinaryOp} (h : binaryOp? k = some op) :
    k.isBracket = false := by
  unfold binaryOp? at h
  split at h <;> cases h <;> rfl

theorem repeats_binary (h : lv.Repeats lv') (rounds least b : Nat) (m : Need) :
    Repeats (Room b) m (fun _ => Room b) (fun x => m ⊔ x.need (lv'.depth + b))
      (binary lv rounds least) (binary lv' rounds least) := by
  induction rounds generalizing least m with
  | zero => exact h.unary b m
  | succ rounds ih =>
    rw [binary, binary]
    have hbase (x : Expr) : (0, lv'.depth) ≤ x.need (lv'.depth + b) :=
      le_trans ⟨Nat.zero_le _, Nat.le_succ_of_le (Nat.le_add_right _ _)⟩ base_le_need
    refine .subtree (.bind ((h.unary b _).mono fun x => sup_le (hbase x) le_rfl)
      (.loop fun lhs => .current fun t => ?_))
    generalize t.kind = k
    split
    case h_1 => exact .pure (fun _ => And.left) le_rfl
    case h_2 op hop =>
      split
      case isTrue => exact .pure (fun _ => And.left) le_rfl
      case isFalse =>
        refine .bind .wrap fun _ => .advance (isBracket_of_binaryOp? hop) fun _ =>
          .bind .skipNewlines fun _ => ?_
        refine .bind (ih _ _) fun rhs => .pure (fun _ => id) (sup_le (need_node_le ?_) (need_le ?_))
        · exact List.mem_cons_self
        · exact List.mem_cons_of_mem _ List.mem_cons_self

theorem repeats_expr (h : lv.Repeats lv') (b : Nat) (m : Need) :
    Repeats (Room b) m (fun _ => Room b) (fun x => m ⊔ x.need (lv'.depth + b))
      (expr lv) (expr lv') :=
  repeats_binary h 8 1 b m

/-! ## Declarations -/

theorem repeats_isLabelStart :
    Repeats S m (fun yes ts => S ts ∧ (yes = true → Heads (isLabelKind · = true) ts)) (fun _ => m)
      isLabelStart isLabelStart := by
  refine .of_flat fun c yes d hc hr => ⟨?_, fun n => ?_⟩
  · rw [isLabelStart_eq] at hr
    cases hr
    exact ⟨hc, fun hyes => (Bool.and_eq_true_iff.mp hyes).1⟩
  · cases hr
    rfl

theorem repeats_isPatternStart :
    Repeats S m (fun _ => S) (fun _ => m) isPatternStart isPatternStart :=
  .of_flat fun c yes d hc hr => by
    cases hr
    exact ⟨hc, fun _ => rfl⟩

theorem repeats_labelOf (t : Token) : Repeats S m (fun _ => S) (fun _ => m) (labelOf t)
    (labelOf t) := by
  unfold labelOf
  split
  · exact .map (.ofToken _)
  · exact .pure (fun _ => id) le_rfl

theorem isBracket_of_isLabelKind {k : TokenKind} (h : isLabelKind k = true) :
    k.isBracket = false := by
  cases k <;> first | rfl | cases h

theorem repeats_field (h : lv.Repeats lv') (b : Nat) (m : Need) :
    Repeats (fun ts => Room b ts ∧ Heads (isLabelKind · = true) ts) m (fun _ => Room b)
      (fun d => needs (need (lv'.depth + b)) m d.children) (field lv) (field lv') := by
  unfold field
  refine .of_heads fun k hk => .advance (isBracket_of_isLabelKind hk) fun t => ?_
  refine .bind (repeats_labelOf t) fun label => .bind (.eat rfl) fun optional =>
    .bind (.expect rfl) fun _ => ?_
  refine .bind repeats_isLabelStart fun _ => .bind repeats_isPatternStart fun _ => ?_
  split
  · refine .bind ((h.decl b m).pre fun _ hc => hc.1) fun d => .pure (fun _ => id) ?_
    have hd := List.mem_singleton_self d
    exact sup_le le_needs (le_trans (need_decl_le hd) (le_needs_of_mem (List.mem_singleton_self _)))
  · refine .bind ((repeats_expr h b m).pre fun _ hc => hc.1) fun x => .pure (fun _ => id) ?_
    exact sup_le le_needs (le_needs_of_mem (List.mem_singleton_self x))

theorem repeats_declBody (h : lv.Repeats lv') (b : Nat) (m : Need) :
    Repeats (Room b) m (fun _ => Room b) (fun d => needs (need (lv'.depth + b)) m d.children)
      (declBody lv) (declBody lv') := by
  unfold declBody
  refine .current fun t => ?_
  generalize t.kind = k
  split
  · exact .advance rfl fun _ => .pure (fun _ => id) le_rfl
  · refine .opening rfl fun b₀ hb _ => .bind .skipNewlines fun _ =>
      .bind (repeats_expr h b₀ m) fun label => ?_
    refine .bind .skipNewlines fun _ => .bind .closing fun _ => .bind (.expect rfl) fun _ => ?_
    rw [← hb]
    refine .bind (repeats_expr h b _) fun x => .pure (fun _ => id) (sup_le (sup_le le_needs ?_) ?_)
    · exact le_trans (need_mono (by omega)) (le_needs_of_mem (a := label) List.mem_cons_self)
    · exact le_needs_of_mem (List.mem_cons_of_mem _ List.mem_cons_self)
  · refine .bind (repeats_isLabelStart.pre fun _ hc => hc.1) fun starts => ?_
    cases starts with
    | true => exact (repeats_field h b m).pre fun _ hc => ⟨hc.1, hc.2 rfl⟩
    | false =>
      refine .bind ((repeats_expr h b m).pre fun _ hc => hc.1) fun x => .pure (fun _ => id) ?_
      exact sup_le le_needs (le_needs_of_mem (List.mem_singleton_self x))

theorem repeats_decls (h : lv.Repeats lv') (stop : TokenKind) (b : Nat) (m : Need) :
    Repeats (Room b) m (fun _ => Room b) (needs (Decl.need (lv'.depth + b)) m) (decls lv stop)
      (decls lv' stop) := by
  unfold decls
  refine .loop (μ := needs (Decl.need (lv'.depth + b)) m) (fun done => ?_) []
  refine .bind .skipSeparators fun _ => .bind .check fun stopped => ?_
  split
  · exact .pure (fun _ => id) needs_reverse.ge
  · refine .bind (h.decl b _) fun d => .current fun t => ?_
    have hmore : needs (Decl.need (lv'.depth + b)) m done ⊔ d.need (lv'.depth + b) =
        needs (Decl.need (lv'.depth + b)) m (d :: done) := sup_comm _ _
    rw [hmore]
    dsimp only
    split
    · exact .pure (fun _ => And.left) le_rfl
    · split
      · exact .pure (fun _ => And.left) needs_reverse.ge
      · exact .unexpected

/-! ## Operands -/

theorem repeats_commaItem (h : lv.Repeats lv') (b : Nat) (m : Need) (done : List Expr) :
    Repeats (Room b) (needs (need (lv'.depth + b)) m done)
      (fun t ts => Turn.After (fun _ => Room b ts) (fun _ => Room b ts) t)
      (Turn.need (needs (need (lv'.depth + b)) m) (needs (need (lv'.depth + b)) m))
      (commaItem lv done) (commaItem lv' done) := by
  unfold commaItem
  refine .bind (repeats_expr h b _) fun x => .bind .skipNewlines fun _ =>
    .bind (.eat rfl) fun comma => ?_
  have hmore : needs (need (lv'.depth + b)) m done ⊔ x.need (lv'.depth + b) =
      needs (need (lv'.depth + b)) m (x :: done) := sup_comm _ _
  rw [hmore]
  split
  · exact .bind .skipNewlines fun _ => .pure (fun _ => id) le_rfl
  · exact .pure (fun _ => id) needs_reverse.ge

theorem repeats_arguments (h : lv.Repeats lv') (b : Nat) (m : Need) :
    Repeats (Room b) m (fun _ => Room b) (needs (need (lv'.depth + b)) m) (arguments lv)
      (arguments lv') := by
  unfold arguments
  refine .loop (μ := needs (need (lv'.depth + b)) m) (fun done => .bind .check fun closed => ?_) []
  split
  · exact .pure (fun _ => id) needs_reverse.ge
  · exact repeats_commaItem h b m done

theorem repeats_listTail (h : lv.Repeats lv') (b : Nat) (m : Need) :
    Repeats (Room b) m (fun _ => Room b) (fun x => m ⊔ x.need (lv'.depth + b)) (listTail lv)
      (listTail lv') := by
  have hrest {m : Need} {x : Expr} {μ : Expr → Need} (hm : m ≤ μ x) :
      Repeats (Room b) m (fun _ => Room b) μ (do
      skipNewlines
      let _ ← eat .comma
      skipNewlines
      return x) (do
      skipNewlines
      let _ ← eat .comma
      skipNewlines
      return x) :=
    .bind .skipNewlines fun _ => .bind (.eat rfl) fun _ => .bind .skipNewlines fun _ =>
      .pure (fun _ => id) hm
  unfold listTail
  refine .current fun t => ?_
  dsimp only
  split
  · exact (hrest le_sup_left).pre fun _ => And.left
  · exact .bind ((repeats_expr h b m).pre fun _ => And.left) fun x => hrest le_rfl

theorem repeats_listItems (h : lv.Repeats lv') (b : Nat) (m : Need) :
    Repeats (Room b) m (fun _ => Room b) (fun items => needs (need (lv'.depth + b)) m (items.1 ++ items.2.toList))
      (listItems lv) (listItems lv') := by
  unfold listItems
  refine .loop (μ := needs (need (lv'.depth + b)) m) (fun done => .bind .check fun closed => ?_) []
  split
  · refine .pure (fun _ => id) ?_
    show _ ≤ needs _ m (done.reverse ++ [])
    rw [List.append_nil, needs_reverse]
  · refine .bind (.eat rfl) fun ellipsis => ?_
    split
    · refine .bind (repeats_listTail h b _) fun tail => .pure (fun _ => id) ?_
      show _ ≤ needs _ m (done.reverse ++ [tail])
      refine sup_le (needs_le_iff.mpr ⟨le_needs, fun x hx => le_needs_of_mem ?_⟩)
        (le_needs_of_mem ?_)
      · exact List.mem_append_left _ (List.mem_reverse.mpr hx)
      · exact List.mem_append_right _ (List.mem_singleton_self tail)
    · refine .bind (repeats_commaItem h b m done) fun turn => ?_
      cases turn with
      | again xs => exact .pure (fun _ => id) le_rfl
      | done xs =>
        refine .pure (fun _ => id) ?_
        show _ ≤ needs _ m (xs ++ [])
        rw [List.append_nil]
        exact le_rfl

theorem repeats_primary (h : lv.Repeats lv') (hg : lv'.depth + b = g + 1) (m : Need) :
    Repeats (Room b) m (fun _ => Room b) (fun x => m ⊔ x.need g) (primary lv) (primary lv') := by
  unfold primary
  refine .current fun t => ?_
  dsimp only
  generalize t.kind = k
  have hopen {b₀ : Nat} (hb : b = b₀ + 1) : lv'.depth + b₀ = g := by omega
  split
  case h_10 =>
    refine .opening rfl fun b₀ hb _ => .bind (repeats_decls h _ b₀ m) fun ds =>
      .bind .closing fun _ => ?_
    refine .pure (fun _ hc => hb ▸ hc) (needs_le_iff.mpr ⟨le_sup_left, fun d hd => le_trans ?_ le_sup_right⟩)
    rw [hopen hb]
    exact need_decl_le hd
  case h_11 =>
    refine .opening rfl fun b₀ hb _ => .bind .skipNewlines fun _ =>
      .bind (repeats_listItems h b₀ m) fun items => ?_
    refine .bind .closing fun _ => .pure (fun _ hc => hb ▸ hc) ?_
    refine needs_le_iff.mpr ⟨le_sup_left, fun x hx => le_trans ?_ le_sup_right⟩
    rw [hopen hb]
    exact need_le hx
  case h_12 =>
    refine .opening rfl fun b₀ hb _ => .bind .skipNewlines fun _ =>
      .bind (repeats_expr h b₀ m) fun x => ?_
    refine .bind .skipNewlines fun _ => .bind .closing fun _ => .pure (fun _ hc => hb ▸ hc) ?_
    rw [hopen hb]
  case h_13 => exact .unexpected
  case h_1 | h_3 =>
    exact .bind (.ofToken _) fun _ => .advance rfl fun _ => .pure (fun _ => id) le_sup_left
  all_goals exact .advance rfl fun _ => .pure (fun _ => id) le_sup_left

theorem repeats_postfixTurn (h : lv.Repeats lv') (hg : lv'.depth + b = g + 1) (x : Expr) :
    Repeats (Room b) (x.need g) (fun t ts => Turn.After (fun _ => Room b ts) (fun _ => Room b ts) t)
      (Turn.need (need g) (need g)) (postfixTurn lv x) (postfixTurn lv' x) := by
  unfold postfixTurn
  refine .current fun t => ?_
  generalize t.kind = k
  have hopen {b₀ : Nat} (hb : b = b₀ + 1) : lv'.depth + b₀ = g := by omega
  split
  · refine .bind .wrap fun _ => .advance rfl fun _ => .current fun u => ?_
    split
    case isTrue hlabel =>
      refine .bind (repeats_labelOf u) fun label =>
        .advance (isBracket_of_isLabelKind hlabel) fun _ => ?_
      exact .pure (fun _ => id) (need_node_le (List.mem_singleton_self x))
    case isFalse => exact .unexpected
  · refine .bind .wrap fun _ => .opening rfl fun b₀ hb _ => .bind .skipNewlines fun _ => ?_
    refine .bind (repeats_expr h b₀ _) fun position => .bind .skipNewlines fun _ =>
      .bind .closing fun _ => ?_
    refine .pure (fun _ hc => hb ▸ hc) (sup_le (need_node_le List.mem_cons_self) ?_)
    rw [hopen hb]
    exact need_le (List.mem_cons_of_mem _ List.mem_cons_self)
  · refine .bind .wrap fun _ => .opening rfl fun b₀ hb _ => .bind .skipNewlines fun _ => ?_
    refine .bind (repeats_arguments h b₀ _) fun args => .bind .closing fun _ => ?_
    refine .pure (fun _ hc => hb ▸ hc) (needs_le_iff.mpr ⟨need_node_le List.mem_cons_self, fun y hy => ?_⟩)
    rw [hopen hb]
    exact need_le (List.mem_cons_of_mem _ hy)
  · exact .pure (fun _ => And.left) le_rfl

theorem repeats_postfixChain (h : lv.Repeats lv') (hg : lv'.depth + b = g + 1) (m : Need) :
    Repeats (Room b) m (fun _ => Room b) (fun x => m ⊔ x.need g) (postfixChain lv)
      (postfixChain lv') := by
  have hbase (x : Expr) : (0, lv'.depth) ≤ x.need g :=
    le_trans ⟨Nat.zero_le _, hg ▸ Nat.le_add_right _ _⟩ base_le_need
  unfold postfixChain
  refine .subtree (.bind ((repeats_primary h hg _).mono fun x => sup_le (hbase x) le_rfl) fun x => ?_)
  exact .loop (repeats_postfixTurn h hg) x

theorem isBracket_of_prefixOp? {k : TokenKind} {apply : Expr → Expr}
    (h : prefixOp? k = some apply) : k.isBracket = false := by
  unfold prefixOp? at h
  split at h <;> cases h <;> rfl

theorem need_succ_le_apply {k : TokenKind} {apply : Expr → Expr}
    (h : prefixOp? k = some apply) (x : Expr) : x.need (g + 1) ≤ (apply x).need g := by
  unfold prefixOp? at h
  split at h <;> cases h <;> exact need_succ_le rfl (List.mem_singleton_self x)

theorem repeats_unaryBody (h : lv.Repeats lv') (hg : lv'.depth + b = g + 1) (m : Need) :
    Repeats (Room b) m (fun _ => Room b) (fun x => m ⊔ x.need g) (unaryBody lv)
      (unaryBody lv') := by
  unfold unaryBody
  refine .current fun t => ?_
  generalize t.kind = k
  split
  case h_1 apply happly =>
    refine .advance (isBracket_of_prefixOp? happly) fun _ => .bind (h.unary b m) fun x =>
      .pure (fun _ => id) ?_
    rw [hg]
    exact sup_le_sup_left (need_succ_le_apply happly x) m
  case h_2 => exact (repeats_postfixChain h hg m).pre fun _ => And.left

/-! ## Levels -/

/-- What a level reads is read again at any level; at the last one there is no room for anything. -/
theorem repeats_level (left : Nat) {left' : Nat} (hleft : left' ≤ maxNesting) :
    (level left).Repeats (level left') := by
  induction left generalizing left' with
  | zero => exact ⟨fun _ _ => .never fun _ _ => nofun, fun _ _ => .never fun _ _ => nofun⟩
  | succ left ih =>
    have hsucc {below : Nat} (hleft : below + 1 ≤ maxNesting) :
        (level (left + 1)).Repeats (level (below + 1)) := by
      have hbelow : (level left).Repeats (level below) := ih (Nat.le_of_succ_le hleft)
      have hdepth : (level below).depth = (level (below + 1)).depth + 1 := by
        rw [depth_level, depth_level]
        omega
      have hg (b : Nat) : (level below).depth + b = (level (below + 1)).depth + b + 1 := by omega
      have hbase (b : Nat) : (0, (level below).depth) ≤
          ((level (below + 1)).depth + b + 1, (level (below + 1)).depth + b + 1) :=
        ⟨Nat.zero_le _, hg b ▸ Nat.le_add_right _ _⟩
      refine ⟨fun b m => .bind .reach fun _ => ?_, fun b m => .bind .reach fun _ => ?_⟩
      · refine (repeats_declBody hbelow b _).mono fun d => needs_le_iff.mpr ⟨?_, fun x hx => ?_⟩
        · exact sup_le_sup_left (le_trans (hbase b) le_needs) m
        · rw [hg]
          exact le_trans (le_needs_of_mem hx) le_sup_right
      · refine (repeats_unaryBody hbelow (hg b) _).mono fun x =>
          sup_le (sup_le_sup_left ?_ m) le_sup_right
        exact le_trans (hbase b) base_le_need
    cases left' with
    | succ below => exact hsucc hleft
    | zero =>
      have hone : (level (left + 1)).Repeats (level 1) := hsucc (by decide)
      have hlast (b : Nat) {n : Need} (hn : (maxNesting + b + 1, maxNesting + b + 1) ≤ n) :
          ¬ n ≤ limits := fun h =>
        Nat.not_succ_le_self maxNesting (le_trans (Nat.succ_le_succ (Nat.le_add_right _ b)) (le_trans hn h).1)
      refine ⟨fun b m => (hone.decl b m).beyond (fun _ => le_sup_left) fun d => hlast b ?_,
        fun b m => (hone.unary b m).beyond (fun _ => le_sup_left) fun x => hlast b ?_⟩
      · exact le_trans le_needs le_sup_right
      · exact le_trans base_le_need le_sup_right

/-- An expression that has been read on one level is read again on a level where there is room for
it. -/
theorem expr_of_room {left left' n : Nat} {c d : Cursor} {x : Expr} (hleft : left' ≤ maxNesting)
    (hc : Room b c.tokens) (hread : expr (level left) c = .ok (x, d))
    (hroom : (0, n) ⊔ x.need ((level left').depth + b) ≤ limits) :
    ∃ n', expr (level left') { c with deepest := n } = .ok (x, { d with deepest := n' }) := by
  obtain ⟨-, -, hrun⟩ := repeats_expr (repeats_level left hleft) b (0, n) hc hread
  obtain ⟨n', -, hread'⟩ := hrun hroom n le_rfl
  exact ⟨n', hread'⟩

end Parser

theorem room_of_tokenize {text : String} {ts : List Token} (h : Token.tokenize text = .ok ts) :
    Room (bracketNesting text) ts := by
  obtain ⟨us, t, rfl, hkind⟩ := Token.last_of_tokenizeFrom h
  refine ⟨?_, t, List.getLast?_concat, hkind⟩
  rw [bracketNesting, h]

end SchemaMock
