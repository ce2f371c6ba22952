import SchemaMock.Proofs.Outcome
import SchemaMock.Token.Cursor

/-! # The deepest node

Most readers leave the count of the deepest node alone. The others raise it, up to the limit. What a
reader gives is related to the count at its end, and the rules follow the way readers are composed.
-/

namespace SchemaMock.Reader

variable {α β : Type} {d : Nat}

theorem bind_eq_ok {r : Reader α} {f : α → Reader β} {c c' : Cursor} {b : β}
    (h : (r >>= f) c = .ok (b, c')) : ∃ a s, r c = .ok (a, s) ∧ f a s = .ok (b, c') := by
  obtain ⟨⟨a, s⟩, hr, h⟩ := Except.exists_of_bind_eq_ok h
  exact ⟨a, s, hr, h⟩

theorem reach_eq_ok {depth : Nat} {c s : Cursor} {u : Unit} (h : reach depth c = .ok (u, s)) :
    depth ≤ maxDepth ∧ s = { c with deepest := max c.deepest depth } := by
  unfold reach at h
  split at h <;> cases h
  case isFalse hdepth => exact ⟨Nat.le_of_not_lt hdepth, rfl⟩

theorem subtree_eq_ok {depth : Nat} {r : Reader α} {c d : Cursor} {a : α}
    (h : subtree depth r c = .ok (a, d)) :
    ∃ s, r { c with deepest := depth } = .ok (a, s) ∧
      d = { s with deepest := max s.deepest c.deepest } := by
  unfold subtree at h
  split at h <;> cases h
  case h_1 s hr => exact ⟨s, hr, rfl⟩

/-! ## Readers that open no node -/

class Flat (r : Reader α) : Prop where
  deepest_eq : ∀ {c c' : Cursor} {a : α}, r c = .ok (a, c') → c'.deepest = c.deepest

theorem deepest_next (c : Cursor) : c.next.deepest = c.deepest := by
  unfold Cursor.next
  split <;> rfl

theorem deepest_skip (p : TokenKind → Bool) (c : Cursor) : (c.skip p).deepest = c.deepest := by
  suffices h : ∀ (ts : List Token) (t : Token), (Cursor.skip.go p c t ts).deepest =
      c.deepest from h _ _
  intro ts
  induction ts with
  | nil => exact fun _ => rfl
  | cons u us ih =>
    intro t
    rw [Cursor.skip.go]
    split
    · exact ih u
    · rfl

instance (a : α) : Flat (pure a) := ⟨fun h => by cases h; rfl⟩

instance (r : Reader α) (f : α → Reader β) [hr : Flat r] [hf : ∀ a, Flat (f a)] :
    Flat (r >>= f) where
  deepest_eq h := by
    obtain ⟨a, s, hs, h⟩ := bind_eq_ok h
    rw [(hf a).deepest_eq h, hr.deepest_eq hs]

instance (f : α → β) (r : Reader α) [hr : Flat r] : Flat (f <$> r) :=
  inferInstanceAs (Flat (r >>= fun a => pure (f a)))

instance (p : Prop) [Decidable p] (r s : Reader α) [Flat r] [Flat s] :
    Flat (if p then r else s) := by
  split <;> assumption

instance : Flat current := ⟨fun h => by cases h; rfl⟩
instance (n : Nat) : Flat (kindAhead n) := ⟨fun h => by cases h; rfl⟩
instance (kind : TokenKind) : Flat (check kind) := ⟨fun h => by cases h; rfl⟩
instance (fault : SourceFault) : Flat (fail fault : Reader α) := ⟨nofun⟩

instance : Flat advance := ⟨fun h => by cases h; exact deepest_next _⟩
instance : Flat skipNewlines := ⟨fun h => by cases h; exact deepest_skip _ _⟩
instance : Flat skipSeparators := ⟨fun h => by cases h; exact deepest_skip _ _⟩

instance (kind : TokenKind) : Flat (eat kind) where
  deepest_eq h := by
    unfold eat at h
    split at h <;> cases h
    · exact deepest_next _
    · rfl

instance (kind : TokenKind) : Flat (expect kind) where
  deepest_eq h := by
    unfold expect at h
    split at h <;> cases h
    exact deepest_next _

instance (token : Token) (result : Except SourceFault α) : Flat (ofToken token result) where
  deepest_eq h := by
    unfold ofToken at h
    split at h <;> cases h
    rfl

instance (turn : α → Reader (Turn α β)) (a : α) [hturn : ∀ a, Flat (turn a)] :
    Flat (loop turn a) where
  deepest_eq {c c' b} h := by
    suffices hgo : ∀ n a, Flat (loop.go turn n a) from (hgo _ a).deepest_eq h
    intro n
    induction n with
    | zero => exact fun _ => inferInstanceAs (Flat (fail _))
    | succ n ih =>
      intro a
      rw [loop.go]
      have (t : Turn α β) :
          Flat (match t with | .again a => loop.go turn n a | .done b => pure b) := by
        cases t
        · exact ih _
        · infer_instance
      infer_instance

/-! ## Readers that open nodes -/

/-- With a count of `d`, the reader ends with one that is no lower and within the limit. `Q` holds
of it and of what is given. -/
def Deepens (r : Reader α) (Q : Nat → α → Prop) (d : Nat) : Prop :=
  ∀ c a c', c.deepest = d → d ≤ maxDepth → r c = .ok (a, c') →
    d ≤ c'.deepest ∧ c'.deepest ≤ maxDepth ∧ Q c'.deepest a

namespace Deepens

variable {P Q : Nat → α → Prop} {R : Nat → β → Prop} {r : Reader α} {f : α → Reader β}

theorem mono (h : Deepens r P d) (hmono : ∀ n a, d ≤ n → n ≤ maxDepth → P n a → Q n a) :
    Deepens r Q d := by
  intro c a c' hc hd hr
  obtain ⟨hle, hmax, hp⟩ := h c a c' hc hd hr
  exact ⟨hle, hmax, hmono _ a hle hmax hp⟩

theorem pure {a : α} (h : Q d a) : Deepens (Pure.pure a) Q d := by
  rintro c b c' rfl hd hr
  cases hr
  exact ⟨Nat.le_refl _, hd, h⟩

theorem fail (fault : SourceFault) : Deepens (Reader.fail fault) Q d :=
  fun _ _ _ _ _ h => by cases h

theorem unexpected (what : Expectation) : Deepens (Reader.unexpected what) Q d :=
  fun _ _ _ _ _ h => by cases h

theorem bind (h : Deepens r P d) (hf : ∀ n a, d ≤ n → n ≤ maxDepth → P n a → Deepens (f a) R n) :
    Deepens (r >>= f) R d := by
  intro c b c' hc hd hr
  obtain ⟨a, s, hs, hb⟩ := bind_eq_ok hr
  obtain ⟨hle, hmax, hp⟩ := h c a s hc hd hs
  obtain ⟨hle', hmax', hq⟩ := hf _ a hle hmax hp s b c' rfl hmax hb
  exact ⟨Nat.le_trans hle hle', hmax', hq⟩

/-- A reader that opens no node may stand before any other. -/
theorem after [hr : Flat r] (hf : ∀ a, Deepens (f a) R d) : Deepens (r >>= f) R d := by
  rintro c b c' rfl hd h
  obtain ⟨a, s, hs, hb⟩ := bind_eq_ok h
  exact hf a s b c' (hr.deepest_eq hs) hd hb

theorem reach (depth : Nat) : Deepens (Reader.reach depth) (fun n _ => depth ≤ n) d := by
  rintro c a c' rfl hd h
  obtain ⟨hdepth, rfl⟩ := reach_eq_ok h
  exact ⟨Nat.le_max_left _ _, Nat.max_le.mpr ⟨hd, hdepth⟩, Nat.le_max_right _ _⟩

theorem wrap : Deepens Reader.wrap (fun n _ => d + 1 ≤ n) d := by
  rintro c a c' rfl hd h
  exact reach (c.deepest + 1) c a c' rfl hd h

theorem subtree {depth : Nat} (h : Deepens r Q depth) (hdepth : depth ≤ maxDepth)
    (hmono : ∀ m n a, m ≤ n → Q m a → Q n a) : Deepens (Reader.subtree depth r) Q d := by
  rintro c a c' rfl hd hr
  obtain ⟨s, hs, rfl⟩ := subtree_eq_ok hr
  obtain ⟨-, hmax, hq⟩ := h _ a s rfl hdepth hs
  exact ⟨Nat.le_max_right _ _, Nat.max_le.mpr ⟨hmax, hd⟩, hmono _ _ a (Nat.le_max_left _ _) hq⟩

end Deepens

/-- What holds after a turn: `I` if there are more, `R` if it was the last. -/
def Turn.After (I : α → Prop) (R : β → Prop) : Turn α β → Prop
  | again a => I a
  | done b => R b

theorem Deepens.loop {I : Nat → α → Prop} {R : Nat → β → Prop} {turn : α → Reader (Turn α β)}
    {a : α} (h : I d a)
    (hturn : ∀ n a, d ≤ n → n ≤ maxDepth → I n a →
      Deepens (turn a) (fun n => Turn.After (I n) (R n)) n) :
    Deepens (Reader.loop turn a) R d := by
  suffices hgo : ∀ k n a, d ≤ n → n ≤ maxDepth → I n a → Deepens (loop.go turn k a) R n by
    intro c b c' hc hd hr
    exact hgo _ d a (Nat.le_refl d) hd h c b c' hc hd hr
  intro k
  induction k with
  | zero => exact fun n a _ _ _ => fail _
  | succ k ih =>
    intro n a hle hmax ha
    refine .bind (hturn n a hle hmax ha) fun m t hnm hm ht => ?_
    cases t with
    | again a => exact ih m a (Nat.le_trans hle hnm) hm ht
    | done b => exact .pure ht

end SchemaMock.Reader
