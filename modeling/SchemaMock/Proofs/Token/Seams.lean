import SchemaMock.Proofs.Token.Coverage
import SchemaMock.Proofs.Token.Faces

/-! # Texts put together

Where a blank, a colon or a question mark follows, the lexer cuts the same tokens off a text as
where the text ends. Only what it passes over at the end, a comment above all, may go on into what
follows.
-/

namespace SchemaMock.Token

variable {c d : Char} {cs w : List Char} {lx : Lexeme}

/-! ## Where no token goes on -/

/-- The characters that only strings, and what is passed over, may hold after their first
character. -/
def isStop (d : Char) : Bool := d == ' ' || d == ':' || d == '?'

/-- A class of characters that holds none of them. -/
theorem isStop_of_class {p : Char → Bool} (hp : p ' ' = false ∧ p ':' = false ∧ p '?' = false)
    (hd : p d = true) : isStop d = false := by
  rw [Bool.eq_false_iff]
  intro hstop
  simp only [isStop, Bool.or_eq_true, beq_iff_eq] at hstop
  obtain (rfl | rfl) | rfl := hstop
  · exact Bool.false_ne_true (hp.1.symm.trans hd)
  · exact Bool.false_ne_true (hp.2.1.symm.trans hd)
  · exact Bool.false_ne_true (hp.2.2.symm.trans hd)

theorem isStop_of_isIdentChar (h : isIdentChar d = true) : isStop d = false :=
  isStop_of_class (by decide) h

theorem isStop_of_isDigit (h : d.isDigit = true) : isStop d = false :=
  isStop_of_class (p := Char.isDigit) (by decide) h

theorem isStop_of_exponent {exp : List Char} (h : Exponent exp) : ∀ d ∈ exp, isStop d = false := by
  cases h with
  | none => exact List.forall_mem_nil _
  | @some e sign digits he hsign hdigits =>
    have hfirst : isStop e = false := by obtain rfl | rfl := he <;> rfl
    have hmiddle : ∀ d ∈ sign, isStop d = false := by
      obtain rfl | rfl | rfl := hsign <;> simp [isStop]
    have hlast : ∀ d ∈ digits, isStop d = false := fun d hd => isStop_of_isDigit (hdigits.2 d hd)
    exact List.forall_mem_append.mpr ⟨List.forall_mem_cons.mpr ⟨hfirst, hmiddle⟩, hlast⟩

theorem Form.no_stop {kind : TokenKind} (h : Form (.token kind) (c :: cs)) (hquote : c ≠ '"') :
    ∀ d ∈ cs, isStop d = false := by
  generalize htext : c :: cs = text at h
  cases h with
  | sign h =>
    have hsigns : ∀ s ∈ signs, s.1.tail.all (!isStop ·) = true := by decide
    intro d hd
    exact (Bool.not_eq_true' _).mp (List.all_eq_true.mp (hsigns _ h) d (by rwa [← htext]))
  | keyword h =>
    have hkeywords : ∀ s ∈ keywords, s.1.tail.all (!isStop ·) = true := by decide
    intro d hd
    exact (Bool.not_eq_true' _).mp (List.all_eq_true.mp (hkeywords _ h) d (by rwa [← htext]))
  | definition hfirst hrest =>
    cases htext
    exact List.forall_mem_cons.mpr ⟨isStop_of_isIdentChar (isIdentChar_of_isIdentStart hfirst),
      fun d hd => isStop_of_isIdentChar (hrest d hd)⟩
  | ident _ hrest =>
    cases htext
    exact fun d hd => isStop_of_isIdentChar (hrest d hd)
  | int _ hrest =>
    cases htext
    exact fun d hd => (hrest d hd).elim isStop_of_isDigit fun hd => hd ▸ rfl
  | @float whole places exp hwhole hplaces hexp =>
    have hall : ∀ d ∈ whole ++ '.' :: places ++ exp, isStop d = false := by
      simp only [List.forall_mem_append, List.forall_mem_cons]
      exact ⟨⟨fun d hd => isStop_of_isDigit (hwhole.2 d hd), rfl, fun d hd => isStop_of_isDigit (hplaces.2 d hd)⟩,
        isStop_of_exponent hexp⟩
    exact fun d hd => hall d (htext ▸ List.mem_cons_of_mem c hd)
  | string => exact absurd (List.cons.inj htext).1 hquote

/-- What goes on past such a character began with a gap, unless it is an attribute or a string. -/
theorem Form.gap_of_stop {more : List Char} (hstop : isStop d = true)
    (h : Form lx (c :: (cs ++ d :: more))) (hattr : c ≠ '@') (hquote : c ≠ '"') :
    Form .gap (c :: cs) := by
  cases lx with
  | bad => cases h
  | token kind =>
    have hno := h.no_stop hquote d (by simp)
    rw [hstop] at hno
    cases hno
  | gap =>
    generalize htext : c :: (cs ++ d :: more) = text at h
    cases h with
    | blanks hblanks =>
      cases htext
      exact .blanks fun e he => hblanks e (by
        rw [← List.cons_append]
        exact List.mem_append_left _ he)
    | comment hbody =>
      rw [List.cons.injEq] at htext
      obtain ⟨rfl, htext⟩ := htext
      cases cs with
      | nil =>
        rw [List.nil_append, List.cons.injEq] at htext
        rw [htext.1] at hstop
        cases hstop
      | cons e es =>
        cases htext
        exact .comment fun f hf => hbody f (List.mem_append_left _ hf)
    | attr => exact absurd (List.cons.inj htext).1 hattr

/-! ## The cut with more behind it -/

/-- The cut with more text behind what follows it. -/
def Cut.before (x : Cut) (w : List Char) : Cut := { x with rest := x.rest ++ w }

theorem gap_of_attributeTail (h : (attributeTail cs).lexeme ≠ .bad) :
    (attributeTail cs).lexeme = .gap := by
  revert h
  unfold attributeTail
  repeat' split
  all_goals first
    | exact absurd rfl
    | exact fun _ => rfl

theorem attributeTail_append_of_good (h : (attributeTail cs).lexeme ≠ .bad) (w : List Char) :
    attributeTail (cs ++ w) = (attributeTail cs).before w := by
  have hlexeme := gap_of_attributeTail h
  have hform : Form .gap ('@' :: (attributeTail cs).taken) := hlexeme ▸ formed_attributeTail cs h
  have happend := attributeTail_append cs
  rw [Cut.before, hlexeme]
  generalize (attributeTail cs).rest = rest at happend ⊢
  generalize htext : '@' :: (attributeTail cs).taken = text at hform
  cases hform with
  | blanks hblanks =>
    cases htext
    cases hblanks '@' List.mem_cons_self
  | comment => cases htext
  | @attr d name body hd hname hbody =>
    replace htext : (attributeTail cs).taken = d :: name ++ '(' :: body ++ [')'] :=
      (List.cons.inj htext).2
    rw [htext] at happend ⊢
    have htail := attributeTail_of_form hd hname hbody (rest ++ w)
    rw [← happend, List.append_assoc, List.append_assoc]
    exact htail

theorem stringTail_append_of_good (h : (stringTail cs).lexeme ≠ .bad) (w : List Char) :
    stringTail (cs ++ w) = (stringTail cs).before w := by
  obtain ⟨body, hbody, hlexeme, htaken⟩ := body_of_stringTail h
  have happend := stringTail_append cs
  rw [Cut.before, hlexeme, htaken]
  rw [htaken] at happend
  generalize (stringTail cs).rest = rest at happend ⊢
  rw [← happend, List.append_assoc, List.append_assoc]
  exact stringTail_of_body hbody (rest ++ w)

/-- A gap that reaches the end of the text. -/
theorem exhausts_of_form (h : Form .gap (c :: cs)) : (cut c cs).lexeme = .gap ∧
    (cut c cs).rest = [] := by
  have hreach : (cut c cs).Reaches .gap (c :: cs) := reaches_of_form h (List.append_nil _).symm
  have happend := congrArg List.length (cut_append c cs)
  have hle := hreach.le
  rw [List.length_append] at happend
  rw [List.length_cons] at hle
  have hlength : (c :: cs).length = (cut c cs).taken.length + 1 := by
    rw [List.length_cons]
    omega
  exact ⟨(hreach.same hlength).resolve_right Lexeme.noConfusion,
    List.eq_nil_of_length_eq_zero (by omega)⟩

theorem Cut.Reaches.antisymm {x y : Cut} {cs : List Char} (hx : x.Reaches y.lexeme (c :: y.taken))
    (hy : y.Reaches x.lexeme (c :: x.taken)) (hxs : x.taken ++ x.rest = cs)
    (hys : y.taken ++ y.rest = cs) : x = y := by
  have hle := hx.le
  have hge := hy.le
  rw [List.length_cons] at hle hge
  have hlength : x.taken.length = y.taken.length := by omega
  obtain ⟨htaken, hrest⟩ := List.append_inj (hxs.trans hys.symm) hlength
  have hlexeme : x.lexeme = y.lexeme := by
    obtain h | h := hx.same (by rw [List.length_cons, hlength])
    · exact h
    · obtain h' | h' := hy.same (by rw [List.length_cons, hlength])
      · exact h'.symm
      · rw [h, h']
  obtain ⟨lx, taken, rest⟩ := x
  obtain ⟨ly, taken', rest'⟩ := y
  cases hlexeme
  cases htaken
  cases hrest
  rfl

/-- Before a stop the same is cut off as at the end of the text, unless it is a gap that reaches the
end. -/
theorem cut_append_of_stop (hgood : (cut c cs).lexeme ≠ .bad)
    (hrest : (cut c cs).lexeme = .gap → (cut c cs).rest ≠ [])
    (hw : ∀ d ∈ w.head?, isStop d = true) : cut c (cs ++ w) = (cut c cs).before w := by
  by_cases hattr : c = '@'
  · subst hattr
    exact attributeTail_append_of_good hgood w
  by_cases hquote : c = '"'
  · subst hquote
    exact stringTail_append_of_good hgood w
  have hbefore : ((cut c cs).before w).taken ++ ((cut c cs).before w).rest = cs ++ w := by
    rw [Cut.before, ← List.append_assoc, cut_append]
  have hx : (cut c (cs ++ w)).Reaches (cut c cs).lexeme (c :: (cut c cs).taken) :=
    reaches_of_form (formed_cut c cs hgood) (by rw [List.cons_append, ← hbefore]; rfl)
  have hform := formed_cut c (cs ++ w) hx.good
  have happend := cut_append c (cs ++ w)
  obtain ⟨more, htaken⟩ : ∃ more, cs = (cut c (cs ++ w)).taken ++ more := by
    obtain ⟨more, htaken, hrest'⟩ | ⟨more, hcs, -⟩ := List.append_eq_append_iff.mp happend
    · exact ⟨more, htaken⟩
    · cases more with
      | nil => exact ⟨[], by rw [hcs, List.append_nil, List.append_nil]⟩
      | cons d more =>
        -- what is cut off goes on past the stop
        rw [hcs, List.append_assoc, List.append_cancel_left_eq] at happend
        have hstop : isStop d = true := hw d (by rw [← happend]; rfl)
        rw [hcs] at hform
        have hexhausts := exhausts_of_form (hform.gap_of_stop hstop hattr hquote)
        exact absurd hexhausts.2 (hrest hexhausts.1)
  have hy : (cut c cs).Reaches (cut c (cs ++ w)).lexeme (c :: (cut c (cs ++ w)).taken) :=
    reaches_of_form hform (by rw [List.cons_append, ← htaken])
  have hy' :
      ((cut c cs).before w).Reaches (cut c (cs ++ w)).lexeme (c :: (cut c (cs ++ w)).taken) :=
    ⟨hy.good, hy.le, hy.same⟩
  exact Cut.Reaches.antisymm (y := (cut c cs).before w) hx hy' happend hbefore

/-- A gap that reaches the end of the text goes on into what follows. -/
theorem gap_append (hgap : (cut c cs).lexeme = .gap) (hrest : (cut c cs).rest = [])
    (w : List Char) : (cut c (cs ++ w)).lexeme = .gap ∧ (cut c (cs ++ w)).rest <:+ w := by
  have hform := formed_cut c cs (hgap ▸ Lexeme.noConfusion)
  have htaken := cut_append c cs
  rw [hrest, List.append_nil] at htaken
  rw [hgap, htaken] at hform
  generalize htext : c :: cs = text at hform
  cases hform with
  | blanks hblanks =>
    cases htext
    obtain ⟨hc, hcs⟩ := List.forall_mem_cons.mp hblanks
    rw [show cut c (cs ++ w) = run .gap isGap (cs ++ w) from if_pos hc]
    refine ⟨rfl, ?_⟩
    rw [run, List.dropWhile_append_of_pos hcs]
    exact List.dropWhile_suffix _
  | @comment body hbody =>
    cases htext
    refine ⟨rfl, ?_⟩
    show (body ++ w).dropWhile (· != '\n') <:+ w
    rw [List.dropWhile_append_of_pos fun d hd => by simpa using hbody d hd]
    exact List.dropWhile_suffix _
  | attr =>
    obtain rfl : c = '@' := (List.cons.inj htext).1
    have happend : cut '@' (cs ++ w) = (cut '@' cs).before w :=
      attributeTail_append_of_good (show (cut '@' cs).lexeme ≠ .bad from hgap ▸ Lexeme.noConfusion)
        w
    rw [happend, Cut.before, hrest]
    exact ⟨hgap, List.suffix_refl w⟩

/-- A text that is one token is that token before a stop. -/
theorem cuts_whole {kind : TokenKind} {faces : List Face} (hcut : cut c cs = ⟨.token kind, cs, []⟩)
    (hw : ∀ d ∈ w.head?, isStop d = true) (h : Cuts w faces) :
    Cuts (c :: (cs ++ w)) ((kind, c :: cs) :: faces) := by
  have happend : cut c (cs ++ w) = ⟨.token kind, cs, w⟩ := by
    rw [cut_append_of_stop (by rw [hcut]; exact Lexeme.noConfusion) (by rw [hcut]; exact Lexeme.noConfusion) hw, hcut]
    rfl
  have hcuts : Cuts (c :: (cs ++ w)) _ := .token (by rw [happend]) (by rw [happend]; exact h)
  rwa [happend] at hcuts

/-! ## Closing braces behind a text -/

def closers (n : Nat) : List Char := (List.replicate n [' ', '\x7d']).flatten

def closing (n : Nat) : List Face := List.replicate n (.closeBrace, ['\x7d']) ++ [(.eof, [])]

theorem closers_succ (n : Nat) : closers (n + 1) = ' ' :: '\x7d' :: closers n := rfl

theorem head_closers (n : Nat) : ∀ d ∈ (closers n).head?, isStop d = true := by
  cases n with
  | zero => nofun
  | succ n =>
    intro d hd
    cases hd
    rfl

theorem exists_cuts_of_suffix {n : Nat} (h : w <:+ closers n) : ∃ k, Cuts w (closing k) := by
  induction n generalizing w with
  | zero =>
    obtain rfl := List.suffix_nil.mp h
    exact ⟨0, .nil⟩
  | succ n ih =>
    have hbrace {k : Nat} (hk : Cuts (closers n) (closing k)) :
        Cuts ('\x7d' :: closers n) (closing (k + 1)) :=
      .token rfl hk
    rw [closers_succ, List.suffix_cons_iff, List.suffix_cons_iff] at h
    obtain rfl | rfl | h := h
    · obtain ⟨k, hk⟩ := ih (List.suffix_refl _)
      exact ⟨k + 1, cuts_blank (hbrace hk)⟩
    · obtain ⟨k, hk⟩ := ih (List.suffix_refl _)
      exact ⟨k + 1, hbrace hk⟩
    · exact ih h

/-- With closing braces behind it a text shows its tokens still. A comment at its end takes them
in. -/
theorem cuts_append_closers {pos : Nat} {ts : List Token}
    (h : tokenizeFrom pos cs = .ok ts) (n : Nat) :
    ∃ k, Cuts (cs ++ closers n) (ts.dropLast.map face ++ closing k) := by
  fun_induction tokenizeFrom pos cs generalizing ts
  case case1 =>
    cases h
    exact exists_cuts_of_suffix (List.suffix_refl _)
  case case2 => cases h
  case case3 pos c cs piece text stop hgap ih =>
    by_cases hrest : piece.rest = []
    case pos =>
      obtain ⟨hgap', hsuffix⟩ := gap_append hgap hrest (closers n)
      rw [hrest, tokenizeFrom] at h
      cases h
      obtain ⟨k, hk⟩ := exists_cuts_of_suffix hsuffix
      exact ⟨k, .gap hgap' hk⟩
    case neg =>
      have happend : cut c (cs ++ closers n) = piece.before (closers n) :=
        cut_append_of_stop (hgap ▸ Lexeme.noConfusion) (fun _ => hrest) (head_closers n)
      obtain ⟨k, hk⟩ := ih h
      refine ⟨k, ?_⟩
      rw [List.cons_append]
      exact .gap (by rw [happend]; exact hgap) (by rw [happend]; exact hk)
  case case4 pos c cs piece text stop kind hkind ih =>
    obtain ⟨later, hlater, h⟩ := Except.exists_of_bind_eq_ok h
    cases h
    have happend : cut c (cs ++ closers n) = piece.before (closers n) :=
      cut_append_of_stop (hkind ▸ Lexeme.noConfusion)
        (fun hgap => Lexeme.noConfusion (hkind.symm.trans hgap))
        (head_closers n)
    obtain ⟨k, hk⟩ := ih hlater
    have hlast : later ≠ [] := by
      obtain ⟨us, t, rfl, -⟩ := last_of_tokenizeFrom hlater
      exact List.append_ne_nil_of_right_ne_nil us (List.cons_ne_nil t [])
    have hcuts : Cuts (c :: (cs ++ closers n)) _ :=
      .token (by rw [happend]; exact hkind) (by rw [happend]; exact hk)
    refine ⟨k, ?_⟩
    rw [List.dropLast_cons_of_ne_nil hlast, List.map_cons]
    rwa [happend] at hcuts

end SchemaMock.Token
