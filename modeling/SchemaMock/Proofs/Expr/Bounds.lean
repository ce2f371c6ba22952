import SchemaMock.Proofs.Expr.Positions
import SchemaMock.Proofs.Expr.Spacing
import SchemaMock.Proofs.Token.Run

/-! # Readers and walks side by side

A walk agrees with a reader if it gives what the reader gives, comes to the token that the reader
comes to, and breaks off only with the fault of the reader, at a piece of the source. So it never
lapses. What is known of a place is how many tokens lie behind it, at least, and the kind of the
token at hand; loops need the first and steps the second.
-/

namespace SchemaMock

theorem Cursor.eq_of_tokens {c d : Cursor} (h : c.tokens = d.tokens)
    (hdeep : c.deepest = d.deepest) : c = d := by
  cases c
  cases d
  cases h
  cases hdeep
  rfl

/-! ## Faults of literals -/

namespace Literal

theorem map_ne_stalled {α β : Type} {x : Except SourceFault α} (f : α → β)
    (h : x ≠ .error .stalled) : f <$> x ≠ .error .stalled := by
  cases x with
  | error fault => exact fun hfault => h (congrArg Except.error (Except.error.inj hfault))
  | ok a => exact nofun

theorem unescape_ne_stalled (cs : List Char) : unescape cs ≠ .error .stalled := by
  fun_induction unescape cs
  all_goals first | exact map_ne_stalled _ ‹_› | exact nofun

theorem unquote_ne_stalled (text : List Char) : unquote text ≠ .error .stalled :=
  map_ne_stalled _ (unescape_ne_stalled _)

theorem integer_ne_stalled (text : List Char) : integer text ≠ .error .stalled := by
  unfold integer
  dsimp only
  split <;> exact nofun

end Literal

/-! ## Places -/

structure Ground.Sound (g : Ground) : Prop where
  covers : Token.Covers g.source g.tokens
  quoted : ∀ t ∈ g.tokens, t.kind = .string → ∃ body, t.text = '"' :: body ++ ['"']

theorem Ground.sound_of_tokenize {source : String} {tokens : List Token}
    (h : Token.tokenize source = .ok tokens) : Ground.Sound ⟨source, tokens⟩ :=
  ⟨Token.covers_of_tokenize h, (Token.laid_of_tokenizeFrom h).quoted⟩

namespace Walk

open Reader (Turn)

variable {α β : Type} {g : Ground} {c : Cursor} {s s' : Place}

structure Stands (g : Ground) (s : Place) (c : Cursor) : Prop where
  sound : g.Sound
  tokens : g.tokens.drop s.index = c.tokens
  deepest : s.deepest = c.deepest

namespace Stands

theorem length (h : Stands g s c) : g.tokens.length - s.index = c.later.length + 1 := by
  rw [← List.length_drop, h.tokens]
  rfl

theorem lt (h : Stands g s c) : s.index < g.tokens.length := by
  have hlength := h.length
  omega

theorem mem (h : Stands g s c) : c.current ∈ g.tokens := by
  refine List.mem_of_mem_drop (i := s.index) ?_
  rw [h.tokens]
  exact List.mem_cons_self

theorem getElem? (h : Stands g s c) (n : Nat) : g.tokens[s.index + n]? = c.tokens[n]? := by
  rw [← h.tokens, List.getElem?_drop]

theorem peek (h : Stands g s c) (n : Nat) : g.tokens[min (s.index + n) (g.tokens.length - 1)]? =
    some (c.peek n) := by
  have hlength := h.length
  have hlt := h.lt
  unfold Cursor.peek
  by_cases hn : n ≤ c.later.length
  · rw [Nat.min_eq_left (by omega), h.getElem?]
    cases hget : (c.current :: c.later)[n]? with
    | none =>
      rw [List.getElem?_eq_none_iff, List.length_cons] at hget
      omega
    | some t => exact hget
  · have hnone : (c.current :: c.later)[n]? = none := by
      rw [List.getElem?_eq_none_iff, List.length_cons]
      omega
    rw [Nat.min_eq_right (by omega), hnone, show g.tokens.length - 1 = s.index + c.later.length by omega, h.getElem?]
    show (c.current :: c.later)[c.later.length]? = some (c.later.getLastD c.current)
    rw [List.getLastD_eq_getLast?, ← List.getLast?_cons, List.getLast?_eq_getElem?,
      List.length_cons, Nat.add_sub_cancel]

/-- The last token is the end of the source. -/
theorem kind_of_last (h : Stands g s c) : ∀ t ∈ c.tokens.getLast?, t.kind = .eof := by
  obtain ⟨front, heq, -⟩ := h.sound.covers.ended
  rw [← h.tokens, List.getLast?_drop, if_neg (Nat.not_le.mpr h.lt), heq, List.getLast?_concat]
  rintro t ⟨⟩
  rfl

theorem exists_later (h : Stands g s c) (hkind : c.current.kind ≠ .eof) :
    ∃ t ts, c.later = t :: ts := by
  refine List.exists_cons_of_ne_nil fun hnil => hkind (h.kind_of_last _ ?_)
  rw [Cursor.tokens, hnil]
  rfl

theorem next {t : Token} {ts : List Token} (h : Stands g s c) (hlater : c.later = t :: ts) :
    Stands g { s with index := s.index + 1 } c.next := by
  refine ⟨h.sound, ?_, h.deepest.trans (Reader.deepest_next c).symm⟩
  rw [← List.drop_drop, h.tokens, Cursor.tokens_next hlater (List.cons_ne_nil _ _), ← hlater]
  rfl

theorem start (h : g.Sound) : Stands g ⟨0, 0⟩ (Cursor.ofTokens g.tokens) := by
  obtain ⟨front, heq, -⟩ := h.covers.ended
  obtain ⟨t, ts, hcons⟩ :=
    List.exists_cons_of_ne_nil (heq ▸ List.concat_ne_nil _ front : g.tokens ≠ [])
  refine ⟨h, ?_, ?_⟩ <;> rw [hcons] <;> rfl

theorem within (h : Stands g s c) : c.current.span.Within g.source := h.sound.covers.within _ h.mem

end Stands

/-! ## What a walk does -/

theorem bind_of_ok {w : Walk α} {a : α} (f : α → Walk β) (h : w g s = .ok (a, s')) :
    (w >>= f) g s = f a g s' := by
  show (w g s >>= fun p => f p.1 g p.2) = f a g s'
  rw [h]
  rfl

theorem read_bind (f : Ground → Walk β) : (read >>= f) g s = f g g s := rfl

theorem minus_of_le {m n : Nat} (h : n ≤ m) : minus m n g s = .ok (m - n, s) := by
  rw [minus, if_neg (Nat.not_lt.mpr h)]
  rfl

theorem tokenAt_of_getElem? {i : Nat} {t : Token} (h : g.tokens[i]? = some t) :
    tokenAt i g s = .ok (t, s) := by
  rw [tokenAt, read_bind, h]
  rfl

theorem last_eq (h : Stands g s c) : last g s = .ok (g.tokens.length - 1, s) :=
  minus_of_le (Nat.le_trans (Nat.le_add_left 1 s.index) h.lt)

theorem peek_eq (h : Stands g s c) (n : Nat) : peek n g s = .ok (c.peek n, s) := by
  show (last >>= fun l => tokenAt (min (s.index + n) l)) g s = _
  rw [bind_of_ok _ (last_eq h), tokenAt_of_getElem? (h.peek n)]

theorem current_eq (h : Stands g s c) : current g s = .ok (c.current, s) := peek_eq h 0

theorem check_eq (h : Stands g s c) (kind : TokenKind) :
    check kind g s = .ok (c.current.kind == kind, s) := by
  rw [check, bind_of_ok _ (current_eq h)]
  rfl

/-- Only at the last token a walk does not move on. -/
theorem advance_eq (h : Stands g s c) : ∃ s', advance g s = .ok (c.current, s') ∧
    Stands g s' c.next ∧ s.index ≤ s'.index ∧ (c.current.kind ≠ .eof → s.index < s'.index) := by
  have hlength := h.length
  have hadvance : advance g s = (do
      if s.index < g.tokens.length - 1 then set { s with index := s.index + 1 }
      return c.current : Walk Token) g s := by
    rw [advance, bind_of_ok _ (current_eq h)]
    show (last >>= fun l => do
      if s.index < l then set { s with index := s.index + 1 }
      return c.current : Walk Token) g s = _
    exact bind_of_ok _ (last_eq h)
  cases hlater : c.later with
  | nil =>
    rw [hlater, List.length_nil] at hlength
    have hnext : c.next = c := by rw [Cursor.next, hlater]
    rw [if_neg (by omega)] at hadvance
    refine ⟨s, hadvance, hnext.symm ▸ h, Nat.le_refl _, fun hkind => ?_⟩
    obtain ⟨t, ts, hcons⟩ := h.exists_later hkind
    cases hlater.symm.trans hcons
  | cons t ts =>
    rw [hlater, List.length_cons] at hlength
    rw [if_pos (by omega)] at hadvance
    exact ⟨_, hadvance, h.next hlater, Nat.le_succ _, fun _ => Nat.lt_succ_self _⟩

theorem fail_eq (h : Stands g s c) (fault : SourceFault) :
    (fail fault : Walk α) g s = .error (.fault ⟨c.current.span, fault⟩) := by
  rw [fail, bind_of_ok _ (current_eq h)]
  rfl

/-! ## Agreement -/

/-- What is known of a place: about the number of the token at hand, and about its kind. -/
abbrev Known := Nat → TokenKind → Prop

/-- At least so many tokens lie behind. -/
def From (i : Nat) : Known := fun n _ => i ≤ n

/-- At least so many tokens lie behind, and the one at hand is of the kind. -/
def On (i : Nat) (kind : TokenKind) : Known := fun n k => i ≤ n ∧ k = kind

/-- The same result at the same token, or the same fault, at a piece of the source. -/
inductive Matches (g : Ground) (Q : α → Known) : Except Malformed (α × Cursor) →
    Except Stop (α × Place) → Prop where
  | ok {a : α} {c : Cursor} {s : Place} : Stands g s c → Q a s.index c.current.kind →
      Matches g Q (.ok (a, c)) (.ok (a, s))
  | fault {m : Malformed} : m.span.Within g.source → m.fault ≠ .stalled →
    Matches g Q (.error m) (.error (.fault m))

/-- At a place of which `P` is known, the walk does what the reader does, and then `Q` is known. -/
def Agrees (g : Ground) (P : Known) (r : Reader α) (w : Walk α) (Q : α → Known) : Prop :=
  ∀ ⦃c s⦄, Stands g s c → P s.index c.current.kind → Matches g Q (r c) (w g s)

theorem Matches.mono {Q R : α → Known} {x : Except Malformed (α × Cursor)}
    {y : Except Stop (α × Place)} (h : Matches g Q x y) (hQ : ∀ a n k, Q a n k → R a n k) :
    Matches g R x y := by
  cases h with
  | ok hd hq => exact .ok hd (hQ _ _ _ hq)
  | fault hspan hfault => exact .fault hspan hfault

theorem Matches.bind {Q : α → Known} {R : β → Known} {x : Except Malformed (α × Cursor)}
    {y : Except Stop (α × Place)} {f : α → Reader β} {f' : α → Walk β} (h : Matches g Q x y)
    (hf : ∀ a, Agrees g (Q a) (f a) (f' a) R) :
    Matches g R (x >>= fun p => f p.1 p.2) (y >>= fun p => f' p.1 g p.2) := by
  cases h with
  | ok hd hq => exact hf _ hd hq
  | fault hspan hfault => exact .fault hspan hfault

namespace Agrees

variable {P P' : Known} {Q Q' : α → Known} {R : β → Known} {r r' : Reader α} {w : Walk α} {i : Nat}
  {k : TokenKind}

theorem mono (h : Agrees g P r w Q) (hP : ∀ n k, P' n k → P n k)
    (hQ : ∀ a n k, Q a n k → Q' a n k) : Agrees g P' r w Q' :=
  fun _ _ hc hp => (h hc (hP _ _ hp)).mono hQ

theorem pre (h : Agrees g P r w Q) (hP : ∀ n k, P' n k → P n k) : Agrees g P' r w Q :=
  h.mono hP fun _ _ _ => id

theorem post (h : Agrees g P r w Q) (hQ : ∀ a n k, Q a n k → Q' a n k) : Agrees g P r w Q' :=
  h.mono (fun _ _ => id) hQ

theorem of_on (h : Agrees g (From i) r w Q) : Agrees g (On i k) r w Q := h.pre fun _ _ => And.left

/-- What is known of the kind is that it is one of several. -/
theorem of_kinds {p : TokenKind → Prop} (h : ∀ k, p k → Agrees g (On i k) r w Q) :
    Agrees g (fun n k => i ≤ n ∧ p k) r w Q := fun _ _ hc hp => h _ hp.2 hc ⟨hp.1, rfl⟩

theorem pure {a : α} (h : ∀ n k, P n k → Q a n k) : Agrees g P (Pure.pure a) (Pure.pure a) Q :=
  fun _ _ hc hp => .ok hc (h _ _ hp)

/-- A result after no fewer tokens than are asked for. -/
theorem gives {a : α} {j : Nat} (h : i ≤ j) :
    Agrees g (From j) (Pure.pure a) (Pure.pure a) fun _ => From i :=
  pure fun _ _ => Nat.le_trans h

theorem bind {f : α → Reader β} {f' : α → Walk β} (h : Agrees g P r w Q)
    (hf : ∀ a, Agrees g (Q a) (f a) (f' a) R) : Agrees g P (r >>= f) (w >>= f') R :=
  fun _ _ hc hp => (h hc hp).bind hf

theorem congr (hr : ∀ c s, Stands g s c → r c = r' c) (h : Agrees g P r' w Q) :
    Agrees g P r w Q := by
  intro c s hc hp
  rw [hr c s hc]
  exact h hc hp

/-! ## Tokens -/

theorem current {f : Token → Reader β} {f' : Token → Walk β}
    (h : ∀ t ∈ g.tokens, Agrees g (On i t.kind) (f t) (f' t) R) :
    Agrees g (From i) (Reader.current >>= f) (Walk.current >>= f') R := by
  intro c s hc hi
  rw [Reader.current_bind, bind_of_ok f' (current_eq hc)]
  exact h _ hc.mem hc ⟨hi, rfl⟩

theorem advance {f : Token → Reader β} {f' : Token → Walk β} (hk : k ≠ .eof)
    (h : ∀ t ∈ g.tokens, t.kind = k → Agrees g (From (i + 1)) (f t) (f' t) R) :
    Agrees g (On i k) (Reader.advance >>= f) (Walk.advance >>= f') R := by
  rintro c s hc ⟨hi, hkind⟩
  obtain ⟨s', hadvance, hnext, -, hlt⟩ := advance_eq hc
  rw [Reader.advance_bind, bind_of_ok f' hadvance]
  exact h _ hc.mem hkind hnext (Nat.lt_of_le_of_lt hi (hlt (hkind ▸ hk)))

theorem check : Agrees g P (Reader.check k) (Walk.check k) fun yes n k' => P n k' ∧
    yes = (k' == k) := by
  intro c s hc hp
  rw [check_eq hc]
  exact .ok hc ⟨hp, rfl⟩

theorem eat (hk : k ≠ .eof) :
    Agrees g (From i) (Reader.eat k) (Walk.eat k) fun yes => From (bif yes then i + 1 else i) := by
  intro c s hc hi
  rw [Walk.eat, bind_of_ok _ (check_eq hc k)]
  unfold Reader.eat
  by_cases hkind : c.current.kind = k
  · obtain ⟨s', hadvance, hnext, -, hlt⟩ := advance_eq hc
    rw [if_pos hkind, if_pos (beq_iff_eq.mpr hkind), bind_of_ok _ hadvance]
    exact .ok hnext (Nat.lt_of_le_of_lt hi (hlt (hkind ▸ hk)))
  · rw [if_neg hkind, if_neg (fun h => hkind (beq_iff_eq.mp h))]
    exact .ok hc hi

theorem eat_any (hk : k ≠ .eof) :
    Agrees g (From i) (Reader.eat k) (Walk.eat k) fun _ => From i := by
  refine (eat hk).post fun yes n _ hn => ?_
  cases yes with
  | true => exact Nat.le_of_succ_le hn
  | false => exact hn

theorem fail (fault : SourceFault) (h : fault ≠ .stalled) :
    Agrees g P (Reader.fail fault) (Walk.fail fault) Q := by
  intro c s hc _
  rw [fail_eq hc]
  exact .fault hc.within h

theorem unexpected (what : Expectation) :
    Agrees g P (Reader.unexpected what) (Walk.unexpected what) Q := by
  intro c s hc _
  rw [Walk.unexpected, bind_of_ok _ (current_eq hc), fail_eq hc]
  exact .fault hc.within SourceFault.noConfusion

/-- Only the end of the source may be expected without moving on. -/
theorem expect_known : Agrees g (From i) (Reader.expect k) (Walk.expect k)
    fun t n _ => i ≤ n ∧ (k ≠ .eof → t ∈ g.tokens ∧ t.kind = k ∧ i < n) := by
  intro c s hc hi
  rw [Walk.expect, bind_of_ok _ (check_eq hc k)]
  unfold Reader.expect
  by_cases hkind : c.current.kind = k
  · obtain ⟨s', hadvance, hnext, hle, hlt⟩ := advance_eq hc
    rw [if_pos hkind, if_pos (beq_iff_eq.mpr hkind), hadvance]
    exact .ok hnext ⟨Nat.le_trans hi hle, fun hk => ⟨hc.mem, hkind, Nat.lt_of_le_of_lt hi (hlt (hkind ▸ hk))⟩⟩
  · rw [if_neg hkind, if_neg (fun h => hkind (beq_iff_eq.mp h))]
    exact unexpected (P := From i) (.token k) hc hi

theorem expect {f : Token → Reader β} {f' : Token → Walk β} (hk : k ≠ .eof)
    (h : ∀ t ∈ g.tokens, t.kind = k → Agrees g (From (i + 1)) (f t) (f' t) R) :
    Agrees g (From i) (Reader.expect k >>= f) (Walk.expect k >>= f') R := by
  refine expect_known.bind fun t c s hc ⟨_, hknown⟩ => ?_
  obtain ⟨ht, hkind, hlt⟩ := hknown hk
  exact h t ht hkind hc hlt

theorem expect_any : Agrees g (From i) (Reader.expect k) (Walk.expect k) fun _ => From i :=
  expect_known.post fun _ _ _ => And.left

/-! ## Texts -/

/-- The span of a token holds its text. -/
theorem text {t : Token} {f : List Char → Walk α} (ht : t ∈ g.tokens)
    (h : Agrees g P r (f t.text) Q) : Agrees g P r (Walk.text t.span >>= f) Q := by
  intro c s hc hp
  have htext : Walk.text t.span g s = .ok (t.text, s) := by
    rw [Walk.text, read_bind, hc.sound.covers.slice? t ht]
    rfl
  rw [bind_of_ok f htext]
  exact h hc hp

theorem ofToken {t : Token} {x : Except SourceFault α} (ht : t ∈ g.tokens)
    (hx : x ≠ .error .stalled) :
    Agrees g P (Reader.ofToken t x) (Walk.inToken t.span x) fun _ => P := by
  intro c s hc hp
  cases x with
  | ok a => exact .ok hc hp
  | error fault => exact .fault (hc.sound.covers.within t ht) fun h => hx (congrArg Except.error h)

/-- A string has a quote at either end, of one byte. -/
theorem unquote {t : Token} (ht : t ∈ g.tokens) (hkind : t.kind = .string) :
    Agrees g P (Reader.ofToken t (Literal.unquote t.text)) (Walk.unquote t.text t.span)
      fun _ => P := by
  intro c s hc hp
  obtain ⟨body, htext⟩ := hc.sound.quoted t ht hkind
  have hlength : Token.byteLength t.text - 1 = Token.byteLength (['"'] ++ body) := by
    rw [htext, Token.byteLength_append]
    rfl
  have hslice : (⟨1, Token.byteLength t.text - 1⟩ : Span).slice? t.text = some body := by
    rw [hlength, htext]
    exact Token.slice?_append ['"'] body ['"']
  have hvalue : Literal.unquote t.text = String.ofList <$> Literal.unescape body := by
    rw [Literal.unquote, htext, List.cons_append, List.drop_one, List.tail_cons,
      List.dropLast_concat]
  have hwalk :
      Walk.unquote t.text t.span g s = Walk.inToken t.span (Literal.unquote t.text) g s := by
    have hle : 1 ≤ Token.byteLength t.text := htext ▸ Token.byteLength_pos
    rw [Walk.unquote, bind_of_ok _ (minus_of_le hle), hvalue, hslice]
  rw [hwalk]
  exact ofToken ht (Literal.unquote_ne_stalled _) hc hp

/-! ## Depth -/

theorem reach (depth : Nat) : Agrees g P (Reader.reach depth) (Walk.reach depth) fun _ => P := by
  intro c s hc hp
  unfold Reader.reach Walk.reach
  split
  · rw [fail_eq hc]
    exact .fault hc.within SourceFault.noConfusion
  · exact .ok ⟨hc.sound, hc.tokens, congrArg (max · depth) hc.deepest⟩ hp

theorem wrap : Agrees g P Reader.wrap Walk.wrap fun _ => P := by
  intro c s hc hp
  show Matches g _ (Reader.reach (c.deepest + 1) c) (Walk.reach (s.deepest + 1) g s)
  rw [hc.deepest]
  exact reach _ hc hp

theorem subtree {depth : Nat} (h : Agrees g P r w Q) :
    Agrees g P (Reader.subtree depth r) (Walk.subtree depth w) Q := by
  intro c s hc hp
  have hinner : Stands g { s with deepest := depth } { c with deepest := depth } :=
    ⟨hc.sound, hc.tokens, rfl⟩
  have hm : Matches g Q (r { c with deepest := depth }) (w g { s with deepest := depth }) :=
    h hinner hp
  show Matches g Q (Reader.subtree depth r c) (w g { s with deepest := depth } >>= fun p =>
    .ok (p.1, { p.2 with deepest := max p.2.deepest s.deepest }))
  unfold Reader.subtree
  revert hm
  generalize r { c with deepest := depth } = x
  generalize w g { s with deepest := depth } = y
  intro hm
  cases hm with
  | @ok a d s' hd hq => exact .ok ⟨hd.sound, hd.tokens, by rw [hd.deepest, hc.deepest]⟩ hq
  | fault hspan hfault => exact .fault hspan hfault

/-! ## Repetition -/

def Leaves (i : Nat) : Turn α β → Known
  | .again _ => From (i + 1)
  | .done _ => From i

theorem again {a : α} {j : Nat} (h : i + 1 ≤ j) :
    Agrees g (From j) (Pure.pure (Turn.again a : Turn α β))
    (Pure.pure (.again a)) (Leaves i) := pure fun _ _ => Nat.le_trans h

theorem done {b : β} {j : Nat} (h : i ≤ j) : Agrees g (From j) (Pure.pure (Turn.done b : Turn α β))
    (Pure.pure (.done b)) (Leaves i) := pure fun _ _ => Nat.le_trans h

/-- What is known of a place holds of its number. -/
theorem here {v : Nat → Walk α} (h : ∀ n k, P n k → Agrees g (From n) r (v n) Q) :
    Agrees g P r (do v (← get).index) Q := fun _ s hc hp => h s.index _ hp hc (Nat.le_refl _)

theorem further {before : Nat} (hP : ∀ n k, P n k → before < n) (h : Agrees g P r w Q) :
    Agrees g P r (do if before < (← get).index then w else lapse .idle) Q := by
  intro c s hc hp
  show Matches g Q (r c) ((if before < s.index then w else lapse .idle) g s)
  rw [if_pos (hP _ _ hp)]
  exact h hc hp

/-- A loop whose turns move on has no more turns than there are tokens: the turns left are never
fewer than the tokens left, and there is always one left, the last. -/
theorem loop {turn : α → Reader (Turn α β)} {turn' : α → Walk (Turn α β)}
    (h : ∀ i a, Agrees g (From i) (turn a) (turn' a) (Leaves i)) (a : α) :
    Agrees g (From i) (Reader.loop turn a) (Walk.loop turn' a) fun _ => From i := by
  suffices hgo :
      ∀ n i a, Agrees g (fun m _ => i ≤ m ∧ g.tokens.length - m ≤ n) (Reader.loop.go turn n a)
      (Walk.loop.go turn' n a) fun _ => From i by
    intro c s hc hi
    have hlength := hc.length
    show Matches g _ (Reader.loop.go turn (c.later.length + 1) a c)
      (Walk.loop.go turn' (g.tokens.length - s.index) a g s)
    rw [hlength]
    exact hgo _ i a hc ⟨hi, Nat.le_of_eq hlength⟩
  intro n
  induction n with
  | zero =>
    intro i a c s hc ⟨_, hleft⟩
    have hlt := hc.lt
    omega
  | succ n ih =>
    intro i a
    rw [Reader.loop.go, Walk.loop.go]
    refine here (v := fun before => turn' a >>= resume before _) fun before k ⟨hi, hleft⟩ => ?_
    refine .bind (h before a) fun t => ?_
    cases t with
    | again a =>
      refine further (fun _ _ => id) ((ih i a).pre fun m k hm => ?_)
      have hlt : before < m := hm
      exact ⟨Nat.le_trans hi (Nat.le_of_lt hlt), by omega⟩
    | done b => exact .gives hi

/-- Eating tokens of a class one by one, up to one that is not the last, is skipping them. -/
theorem loop_eq_skip {p : TokenKind → Bool} {eaten : Reader Bool}
    (heaten : ∀ c, eaten c = .ok (p c.current.kind, bif p c.current.kind then c.next else c))
    (hlast : ∀ t ∈ c.tokens.getLast?, p t.kind = false) :
    Reader.loop (α := Unit) (fun _ => return if ← eaten then .again () else .done ()) () c =
      .ok ((), c.skip p) := by
  have hturn (c : Cursor) :
      (return if ← eaten then .again () else .done () : Reader (Turn Unit Unit)) c =
      .ok (bif p c.current.kind then .again () else .done (),
      bif p c.current.kind then c.next else c) := by
    rw [Reader.bind_of_ok _ (heaten c)]
    cases p c.current.kind <;> rfl
  have hdone {c : Cursor} (n : Nat) (hp : p c.current.kind = false) : Reader.loop.go (α := Unit)
      (fun _ => return if ← eaten then .again () else .done ()) (n + 1) () c =
      .ok ((), c.skip p) := by
    rw [Cursor.skip_of_not hp]
    exact Reader.loop_go_done (by rw [hturn, hp]; rfl)
  obtain ⟨t, ts, d⟩ := c
  show Reader.loop.go _ (ts.length + 1) () _ = _
  induction ts generalizing t with
  | nil => exact hdone _ (hlast t rfl)
  | cons u us ih =>
    cases hp : p t.kind with
    | false => exact hdone _ hp
    | true =>
      have hskip : Cursor.skip p ⟨t, u :: us, d⟩ = Cursor.skip p ⟨u, us, d⟩ := by
        refine Cursor.eq_of_tokens ?_ (by rw [Reader.deepest_skip, Reader.deepest_skip])
        rw [Cursor.tokens_skip, Cursor.tokens_skip]
        exact if_pos hp
      rw [Reader.loop_go_again (b := ()) (s := ⟨u, us, d⟩) (by rw [hturn, hp]; rfl), hskip]
      exact ih u hlast

theorem skip (eaten : Reader Bool) (eaten' : Walk Bool) {p : TokenKind → Bool} (hp : p .eof = false)
    (heaten : ∀ c, eaten c = .ok (p c.current.kind, bif p c.current.kind then c.next else c))
    (h : ∀ i, Agrees g (From i) eaten eaten' fun yes => From (bif yes then i + 1 else i)) :
    Agrees g (From i) (fun c => .ok ((), c.skip p)) (Walk.skipWhile eaten') fun _ => From i := by
  refine congr (fun c s hc => (loop_eq_skip heaten fun t ht => hc.kind_of_last t ht ▸ hp).symm) ?_
  refine loop (fun i _ => (h i).bind fun yes => ?_) ()
  cases yes with
  | true => exact .again (Nat.le_refl _)
  | false => exact .done (Nat.le_refl _)

theorem eat_apply (k : TokenKind) (c : Cursor) :
    Reader.eat k c = .ok (c.current.kind == k, bif c.current.kind == k then c.next else c) := by
  unfold Reader.eat
  by_cases hkind : c.current.kind = k
  · rw [if_pos hkind, beq_iff_eq.mpr hkind]
    rfl
  · rw [if_neg hkind, beq_false_of_ne hkind]
    rfl

theorem skipNewlines : Agrees g (From i) Reader.skipNewlines Walk.skipNewlines fun _ => From i :=
  skip _ _ rfl (eat_apply .newline) fun _ => eat TokenKind.noConfusion

theorem skipSeparators :
    Agrees g (From i) Reader.skipSeparators Walk.skipSeparators fun _ => From i := by
  refine skip (do if ← Reader.eat .newline then return true else Reader.eat .comma) _ rfl
    (fun c => ?_) fun i => ?_
  · rw [Reader.bind_of_ok _ (eat_apply .newline c)]
    cases c.current.kind == .newline with
    | true => rfl
    | false => exact eat_apply .comma c
  · refine .bind (eat TokenKind.noConfusion) fun yes => ?_
    cases yes with
    | true => exact .pure fun _ _ => id
    | false => exact eat TokenKind.noConfusion

end Agrees

end Walk

end SchemaMock
