import SchemaMock.Expr.Parser
import SchemaMock.Proofs.Token.Deepest
import SchemaMock.Proofs.Token.Faces

/-! # Runs of readers

What a composed reader does at a cursor, step by step, and a reader on a whole text.
-/

namespace SchemaMock

namespace Reader

variable {α β : Type} {c s : Cursor} {a : α} {m : Malformed}

theorem bind_of_ok {r : Reader α} (f : α → Reader β) (h : r c = .ok (a, s)) :
    (r >>= f) c = f a s := by
  show (r c >>= fun p => f p.1 p.2) = f a s
  rw [h]
  rfl

theorem bind_of_error {r : Reader α} (f : α → Reader β) (h : r c = .error m) :
    (r >>= f) c = .error m := by
  show (r c >>= fun p => f p.1 p.2) = .error m
  rw [h]
  rfl

theorem current_bind (f : Token → Reader β) : (current >>= f) c = f c.current c := rfl

theorem advance_bind (f : Token → Reader β) : (advance >>= f) c = f c.current c.next := rfl

theorem subtree_of_ok {depth : Nat} {r : Reader α}
    (h : r { c with deepest := depth } = .ok (a, s)) :
    subtree depth r c = .ok (a, { s with deepest := max s.deepest c.deepest }) := by
  unfold subtree
  rw [h]

theorem subtree_of_error {depth : Nat} {r : Reader α}
    (h : r { c with deepest := depth } = .error m) :
    subtree depth r c = .error m := by
  unfold subtree
  rw [h]

variable {turn : α → Reader (Turn α β)} {n : Nat}

theorem loop_of_done {b : β} (h : turn a c = .ok (.done b, s)) : loop turn a c = .ok (b, s) :=
  bind_of_ok _ h

theorem loop_go_again {b : α} (h : turn a c = .ok (.again b, s)) :
    loop.go turn (n + 1) a c = loop.go turn n b s :=
  bind_of_ok _ h

theorem loop_go_done {b : β} (h : turn a c = .ok (.done b, s)) :
    loop.go turn (n + 1) a c = .ok (b, s) :=
  bind_of_ok _ h

theorem expect_of_kind {kind : TokenKind} (h : c.current.kind = kind) :
    expect kind c = .ok (c.current, c.next) :=
  if_pos h

theorem eat_of_ne {kind : TokenKind} (h : c.current.kind ≠ kind) :
    eat kind c = .ok (false, c) := if_neg h

theorem check_of_ne {kind : TokenKind} (h : c.current.kind ≠ kind) :
    check kind c = .ok (false, c) :=
  congrArg (fun b => Except.ok (b, c)) (beq_false_of_ne h)

theorem check_of_kind {kind : TokenKind} (h : c.current.kind = kind) :
    check kind c = .ok (true, c) :=
  congrArg (fun b => Except.ok (b, c)) (beq_iff_eq.mpr h)

theorem expect_eq_ok {kind : TokenKind} {t : Token} (h : expect kind c = .ok (t, s)) :
    c.current.kind = kind ∧ t = c.current ∧ s = c.next := by
  unfold expect at h
  split at h <;> cases h
  case isTrue hkind => exact ⟨hkind, rfl, rfl⟩

theorem reach_of_le {depth : Nat} (h : depth ≤ maxDepth) :
    reach depth c = .ok ((), { c with deepest := max c.deepest depth }) :=
  if_neg (Nat.not_lt.mpr h)

theorem wrap_of_lt (h : c.deepest < maxDepth) :
    wrap c = .ok ((), { c with deepest := c.deepest + 1 }) := by
  rw [wrap, reach_of_le h, Nat.max_eq_right (Nat.le_succ _)]

end Reader

namespace Cursor

theorem next_with (c : Cursor) (d : Nat) :
    { c with deepest := d }.next = { c.next with deepest := d } := by
  obtain ⟨t, ts, n⟩ := c
  cases ts <;> rfl

theorem skip_with (p : TokenKind → Bool) (c : Cursor) (d : Nat) :
    { c with deepest := d }.skip p = { c.skip p with deepest := d } := by
  suffices h : ∀ ts t, skip.go p { c with deepest := d } t ts =
    { skip.go p c t ts with deepest := d } from h _ _
  intro ts
  induction ts with
  | nil => exact fun _ => rfl
  | cons u us ih =>
    intro t
    rw [skip.go, skip.go]
    split
    · exact ih u
    · rfl

variable {c : Cursor} {f : Face} {fs : List Face}

theorem kind_of_faces (h : c.faces = f :: fs) : c.current.kind = f.1 := by
  rw [faces, List.map_cons, List.cons.injEq] at h
  rw [← h.1]
  rfl

theorem text_of_faces (h : c.faces = f :: fs) : c.current.text = f.2 := by
  rw [faces, List.map_cons, List.cons.injEq] at h
  rw [← h.1]
  rfl

theorem length_of_faces (h : c.faces = f :: fs) : c.later.length = fs.length := by
  rw [faces, List.map_cons, List.cons.injEq] at h
  rw [← h.2, List.length_map]

theorem faces_next {g : Face} (h : c.faces = f :: g :: fs) : c.next.faces = g :: fs := by
  rw [faces, List.map_cons, List.cons.injEq] at h
  unfold next
  cases hl : c.later with
  | nil => rw [hl] at h; cases h.2
  | cons t ts => rw [hl] at h; exact h.2

theorem faces_ofTokens {ts : List Token} (h : ts.map Token.face = f :: fs) :
    (ofTokens ts).faces = f :: fs := by
  cases ts with
  | nil => cases h
  | cons t ts => exact h

theorem skip_of_not {p : TokenKind → Bool} (h : p c.current.kind = false) : c.skip p = c := by
  unfold skip
  cases hl : c.later with
  | nil => rw [skip.go, ← hl]
  | cons t ts => rw [skip.go, h, if_neg Bool.false_ne_true, ← hl]

end Cursor

theorem Reader.skipNewlines_of_not {c : Cursor} (h : c.current.kind ≠ .newline) :
    skipNewlines c = .ok ((), c) :=
  congrArg (fun s => Except.ok ((), s)) (Cursor.skip_of_not (beq_eq_false_iff_ne.mpr h))

theorem Parser.run_eq_ok_iff {α : Type} {read : Reader α} {source : String} {a : α} :
    run read source = .ok a ↔
      ∃ ts s, Token.tokenize source = .ok ts ∧ read (Cursor.ofTokens ts) = .ok (a, s) := by
  refine ⟨fun h => ?_, fun ⟨ts, s, hts, h⟩ => ?_⟩
  · obtain ⟨ts, hts, h⟩ := Except.exists_of_bind_eq_ok h
    obtain ⟨⟨b, s⟩, hread, h⟩ := Except.exists_of_bind_eq_ok h
    cases h
    exact ⟨ts, s, hts, hread⟩
  · rw [run, hts]
    show (read (Cursor.ofTokens ts) >>= fun p => pure p.1) = .ok a
    rw [h]
    rfl

end SchemaMock
