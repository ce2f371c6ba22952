import Mathlib.Data.List.TakeWhile
import SchemaMock.Proofs.Token.Names

/-! # The forms of lexemes

What the lexer cuts off is the longest text in front that has the form of a lexeme, and it finds one
wherever there is one. Where a keyword is as long as a name, it is the keyword.
-/

namespace SchemaMock.Token

def signs : List (List Char × TokenKind) :=
  [(['\n'], .newline), (['_', '|', '_'], .bottom), (['\x7b'], .openBrace), (['\x7d'], .closeBrace),
    (['['], .openBracket), ([']'], .closeBracket), (['('], .openParen), ([')'], .closeParen),
    ([','], .comma), ([':'], .colon), (['?'], .question), (['.'], .dot),
    (['.', '.', '.'], .ellipsis), (['&'], .amp), (['|'], .bar),
    (['&', '&'], .ampAmp), (['|', '|'], .barBar), (['=', '='], .eqEq),
    (['!', '='], .notEq), (['<'], .lt), (['<', '='], .le), (['>'], .gt), (['>', '='], .ge),
    (['!'], .bang), (['+'], .plus), (['-'], .minus), (['*'], .star), (['/'], .slash)]

def keywords : List (List Char × TokenKind) :=
  [("package".toList, .packageWord), ("import".toList, .importWord), ("true".toList, .trueWord),
    ("false".toList, .falseWord), ("null".toList, .nullWord)]

/-- The text between the quotes of a string: a backslash takes the character after it along. -/
inductive StringBody : List Char → Prop where
  | nil : StringBody []
  | plain {c : Char} {cs : List Char} : c ≠ '"' → c ≠ '\\' → c ≠ '\n' → StringBody cs →
    StringBody (c :: cs)
  | escape {c : Char} {cs : List Char} : c ≠ '\n' → StringBody cs → StringBody ('\\' :: c :: cs)

/-- One digit or more. -/
def Digits (cs : List Char) : Prop := cs ≠ [] ∧ ∀ c ∈ cs, c.isDigit = true

/-- The exponent of a float, which may be missing. -/
inductive Exponent : List Char → Prop where
  | none : Exponent []
  | some {e : Char} {sign digits : List Char} :
      e = 'e' ∨ e = 'E' → sign = [] ∨ sign = ['+'] ∨ sign = ['-'] →
      Digits digits → Exponent (e :: sign ++ digits)

/-- The texts that have the form of a lexeme. -/
inductive Form : Lexeme → List Char → Prop where
  | blanks {c : Char} {cs : List Char} : (∀ d ∈ c :: cs, isGap d = true) → Form .gap (c :: cs)
  | comment {body : List Char} : (∀ d ∈ body, d ≠ '\n') → Form .gap ('/' :: '/' :: body)
  | attr {c : Char} {name body : List Char} : isAttributeStart c = true →
      (∀ d ∈ name, isAttributeChar d = true) → (∀ d ∈ body, d ≠ ')' ∧ d ≠ '\n') →
      Form .gap ('@' :: c :: name ++ '(' :: body ++ [')'])
  | sign {text : List Char} {kind : TokenKind} : (text, kind) ∈ signs → Form (.token kind) text
  | keyword {text : List Char} {kind : TokenKind} : (text, kind) ∈ keywords →
    Form (.token kind) text
  | definition {c : Char} {cs : List Char} :
      isIdentStart c = true → (∀ d ∈ cs, isIdentChar d = true) →
      Form (.token .definition) ('#' :: c :: cs)
  | ident {c : Char} {cs : List Char} : isIdentStart c = true → (∀ d ∈ cs, isIdentChar d = true) →
      Form (.token .ident) (c :: cs)
  | int {c : Char} {cs : List Char} : c.isDigit = true → (∀ d ∈ cs, d.isDigit = true ∨ d = '_') →
      Form (.token .int) (c :: cs)
  | float {whole places exp : List Char} : Digits whole → Digits places → Exponent exp →
      Form (.token .float) (whole ++ '.' :: places ++ exp)
  | string {body : List Char} : StringBody body → Form (.token .string) ('"' :: body ++ ['"'])

/-! ## What is cut off has a form -/

variable {c : Char} {cs : List Char}

theorem isGap_of_isDigit (h : c.isDigit = true) : isGap c = false := by
  rw [Bool.eq_false_iff]
  intro hgap
  simp only [isGap, Bool.or_eq_true, beq_iff_eq] at hgap
  obtain ((rfl | rfl) | rfl) | rfl := hgap <;> cases h

theorem isIdentStart_of_isDigit (h : c.isDigit = true) : isIdentStart c = false := by
  have halpha : c.isAlpha = false := by
    rw [Char.isDigit] at h
    have hupper : c.isUpper = false := by
      show decide (c.val ≥ 65 ∧ c.val ≤ 90) = false
      grind
    have hlower : c.isLower = false := by
      show (decide (c.val ≥ 97) && decide (c.val ≤ 122)) = false
      grind
    exact Bool.or_eq_false_iff.mpr ⟨hupper, hlower⟩
  have hne {d : Char} (hd : d.isDigit = false) : (c == d) = false :=
    beq_eq_false_iff_ne.mpr fun hcd => by rw [hcd, hd] at h; cases h
  rw [isIdentStart, halpha, hne rfl, hne rfl]
  rfl

theorem isIdentChar_of_isIdentStart (h : isIdentStart c = true) : isIdentChar c = true := by
  rw [isIdentStart, Bool.or_eq_true, Bool.or_eq_true] at h
  rw [isIdentChar, Bool.or_eq_true, Bool.or_eq_true, Char.isAlphanum, Bool.or_eq_true]
  exact h.imp_left (Or.imp_left Or.inl)

theorem isAttributeChar_of_isAttributeStart (h : isAttributeStart c = true) :
    isAttributeChar c = true := by
  rw [isAttributeStart, Bool.or_eq_true] at h
  rw [isAttributeChar, Bool.or_eq_true, Char.isAlphanum, Bool.or_eq_true]
  exact h.imp_left Or.inl

theorem forall_mem_takeWhile {p : Char → Bool} : ∀ d ∈ cs.takeWhile p, p d = true :=
  fun _ => List.mem_takeWhile_imp

theorem body_of_stringTail (h : (stringTail cs).lexeme ≠ .bad) :
    ∃ body, StringBody body ∧ (stringTail cs).lexeme = .token .string ∧
      (stringTail cs).taken = body ++ ['"'] := by
  fun_induction stringTail cs
  case case1 => exact absurd rfl h
  case case2 => exact ⟨[], .nil, rfl, rfl⟩
  case case3 => exact absurd rfl h
  case case4 => exact absurd rfl h
  case case5 d ds hnewline ih =>
    obtain ⟨body, hbody, hlexeme, htaken⟩ := ih h
    exact ⟨_, .escape hnewline hbody, hlexeme, congrArg ('\\' :: d :: ·) htaken⟩
  case case6 => exact absurd rfl h
  case case7 d ds hquote hlast hother hnewline ih =>
    obtain ⟨body, hbody, hlexeme, htaken⟩ := ih h
    refine ⟨d :: body, .plain hquote (fun hd => ?_) hnewline hbody, hlexeme,
      congrArg (d :: ·) htaken⟩
    cases ds with
    | nil => exact hlast hd rfl
    | cons e ds => exact hother e ds hd rfl

theorem exponent_exponentTail (cs : List Char) : Exponent (exponentTail cs).1 := by
  unfold exponentTail
  split
  · exact .none
  case h_2 e cs =>
    split
    case isTrue h =>
      have hsign : (signTail cs).1 = [] ∨ (signTail cs).1 = ['+'] ∨ (signTail cs).1 = ['-'] := by
        unfold signTail
        split <;> simp
      exact .some h.1 hsign ⟨by simpa using h.2, forall_mem_takeWhile⟩
    case isFalse => exact .none

/-- A lexeme that is cut off after the character has its form. -/
def Cut.Formed (x : Cut) (c : Char) : Prop := x.lexeme ≠ .bad → Form x.lexeme (c :: x.taken)

theorem Cut.Formed.bad {taken rest : List Char} : Cut.Formed ⟨.bad, taken, rest⟩ c := (absurd rfl ·)

theorem Cut.Formed.single {kind : TokenKind} {rest : List Char} (h : ([c], kind) ∈ signs) :
    Cut.Formed ⟨.token kind, [], rest⟩ c := fun _ => .sign h

theorem formed_numberTail (hc : c.isDigit = true) : (numberTail cs).Formed c := by
  have hint : Form (.token .int) (c :: cs.takeWhile fun d => d.isDigit || d == '_') :=
    .int hc fun d hd => by simpa using forall_mem_takeWhile d hd
  have hdigits {d : Char} {ds : List Char} (hd : d.isDigit = true) :
      Digits (d :: ds.takeWhile Char.isDigit) :=
    ⟨List.cons_ne_nil _ _, List.forall_mem_cons.mpr ⟨hd, forall_mem_takeWhile⟩⟩
  intro _
  unfold numberTail
  split
  case h_1 d cs' h =>
    split
    case isTrue hd =>
      simpa using Form.float (hdigits hc) (hdigits hd)
        (exponent_exponentTail (cs'.dropWhile Char.isDigit))
    case isFalse => exact hint
  case h_2 => exact hint

theorem formed_attributeTail (cs : List Char) : (attributeTail cs).Formed '@' := by
  unfold attributeTail
  split
  case h_1 => exact .bad
  case h_2 c cs =>
    split
    case isFalse => exact .bad
    case isTrue hc =>
      split
      case h_2 => exact .bad
      case h_1 =>
        split
        case h_2 => exact .bad
        case h_1 =>
          have hbody {cs : List Char} : ∀ d ∈ cs.takeWhile fun c => c != ')' && c != '\n',
              d ≠ ')' ∧ d ≠ '\n' :=
            fun d hd => by simpa using forall_mem_takeWhile d hd
          intro _
          rw [List.takeWhile_cons_of_pos (isAttributeChar_of_isAttributeStart hc)]
          exact .attr hc forall_mem_takeWhile hbody

theorem formed_paired {second : Char} {double single : Lexeme} (hdouble : Form double [c, second])
    (hsingle : single ≠ .bad → Form single [c]) : (paired second double single cs).Formed c := by
  unfold paired
  split
  case h_1 d rest =>
    split
    case isTrue hd => exact fun _ => hd ▸ hdouble
    case isFalse => exact hsingle
  case h_2 => exact hsingle

theorem form_word (hc : isIdentStart c = true) (hcs : ∀ d ∈ cs, isIdentChar d = true) :
    Form (.token (word (c :: cs))) (c :: cs) := by
  unfold word
  split_ifs with hpackage himport htrue hfalse hnull
  · exact .keyword (by rw [hpackage]; decide)
  · exact .keyword (by rw [himport]; decide)
  · exact .keyword (by rw [htrue]; decide)
  · exact .keyword (by rw [hfalse]; decide)
  · exact .keyword (by rw [hnull]; decide)
  · exact .ident hc hcs

/-- A lexeme that is cut off has its form. -/
theorem formed_cut (c : Char) (cs : List Char) : (cut c cs).Formed c := by
  unfold cut
  dsimp only
  split
  case isTrue hc => exact fun _ => .blanks (List.forall_mem_cons.mpr ⟨hc, forall_mem_takeWhile⟩)
  case isFalse =>
    split
    case isTrue hstart =>
      split
      · exact fun _ => show Form _ ['_', '|', '_'] from .sign (by decide)
      · exact fun _ => form_word hstart forall_mem_takeWhile
    case isFalse =>
      split
      case isTrue hdigit => exact formed_numberTail hdigit
      case isFalse =>
        split
        all_goals try exact .single (by decide)
        all_goals try exact formed_paired (.sign (by decide)) fun _ => .sign (by decide)
        case h_2 =>
          split
          · exact fun _ => .comment fun d hd => by simpa using forall_mem_takeWhile d hd
          · exact .single (by decide)
        case h_3 => exact formed_attributeTail cs
        case h_4 =>
          split
          case h_1 d ds =>
            split
            case isTrue hd =>
              intro _
              show Form _ ('#' :: (d :: ds).takeWhile isIdentChar)
              rw [List.takeWhile_cons_of_pos (isIdentChar_of_isIdentStart hd)]
              exact .definition hd forall_mem_takeWhile
            case isFalse => exact .bad
          case h_2 => exact .bad
        case h_5 =>
          intro h
          obtain ⟨body, hbody, hlexeme, htaken⟩ := body_of_stringTail h
          rw [hlexeme, htaken]
          exact .string hbody
        case h_15 =>
          split
          · exact fun _ => show Form _ ['.', '.', '.'] from .sign (by decide)
          · exact .single (by decide)
        case h_18 => exact formed_paired (.sign (by decide)) (absurd rfl)
        case h_25 => exact .bad

/-! ## Nothing longer has a form -/

/-- The cut is a lexeme that goes further than the text, or that is the text. It is of the kind
then; only a name may be a keyword. -/
structure Cut.Reaches (x : Cut) (kind : Lexeme) (text : List Char) : Prop where
  good : x.lexeme ≠ .bad
  le : text.length ≤ x.taken.length + 1
  same : text.length = x.taken.length + 1 → x.lexeme = kind ∨ kind = .token .ident

variable {x : Cut} {lx : Lexeme} {text : List Char}

theorem Cut.Reaches.of_lexeme (hlexeme : x.lexeme = lx) (hgood : lx ≠ .bad)
    (hle : text.length ≤ x.taken.length + 1) :
    x.Reaches lx text := ⟨hlexeme ▸ hgood, hle, fun _ => .inl hlexeme⟩

theorem Cut.Reaches.of_lt (hgood : x.lexeme ≠ .bad) (hlt : text.length < x.taken.length + 1) :
    x.Reaches lx text :=
  ⟨hgood, Nat.le_of_lt hlt, fun h => absurd h (Nat.ne_of_lt hlt)⟩

theorem length_le_takeWhile {p : Char → Bool} {ds : List Char} (h : ∀ d ∈ ds, p d = true)
    (more : List Char) : ds.length ≤ ((ds ++ more).takeWhile p).length := by
  rw [List.takeWhile_append_of_pos h, List.length_append]
  exact Nat.le_add_right _ _

theorem reaches_paired {second : Char} {double single : Lexeme} (hdouble : double ≠ .bad)
    (hsingle : single ≠ .bad) : (paired second double single cs).Reaches single [c] := by
  unfold paired
  split
  · split
    · exact .of_lt hdouble (by simp)
    · exact .of_lexeme rfl hsingle (by simp)
  · exact .of_lexeme rfl hsingle (by simp)

theorem reaches_dot : (cut '.' cs).Reaches (.token .dot) ['.'] := by
  conv => arg 1; whnf
  split
  · exact .of_lt (by simp) (by simp)
  · exact .of_lexeme rfl (by simp) (by simp)

theorem reaches_slash : (cut '/' cs).Reaches (.token .slash) ['/'] := by
  conv => arg 1; whnf
  split
  · exact .of_lt Lexeme.noConfusion (by simp [Cut.after])
  · exact .of_lexeme rfl (by simp) (by simp)

theorem reaches_of_sign {kind : TokenKind} {more : List Char} (h : (text, kind) ∈ signs)
    (heq : c :: cs = text ++ more) : (cut c cs).Reaches (.token kind) text := by
  have hexact {x : Cut} {text : List Char} {kind : TokenKind} (hlexeme : x.lexeme = .token kind)
      (hle : text.length ≤ x.taken.length + 1) : x.Reaches (.token kind) text :=
      .of_lexeme hlexeme (by simp) hle
  have hall : ∀ s ∈ signs, ∀ c cs, c :: cs = s.1 ++ more → (cut c cs).Reaches (.token s.2) s.1 := by
    simp only [signs, List.forall_mem_cons, List.not_mem_nil, false_implies, implies_true, and_true]
    and_intros <;> rintro c cs ⟨⟩ <;> first
      | exact hexact rfl (Nat.le_refl _)
      | exact reaches_paired Lexeme.noConfusion Lexeme.noConfusion
      | exact reaches_dot
      | exact reaches_slash
  exact hall _ h c cs heq

/-- A name goes on up to the first character that is not of a name. -/
theorem cut_name (hc : isIdentStart c = true)
    (hbottom : ∀ rest, c = '_' → cs ≠ '|' :: '_' :: rest) :
    cut c cs = run (.token (word (c :: cs.takeWhile isIdentChar))) isIdentChar cs := by
  unfold cut
  simp only [isGap_of_isIdentStart hc, hc, if_true, Bool.false_eq_true, if_false]

theorem cut_digit (hc : c.isDigit = true) : cut c cs = numberTail cs := by
  unfold cut
  simp only [isGap_of_isDigit hc, isIdentStart_of_isDigit hc, hc, if_true,
    Bool.false_eq_true, if_false]

theorem reaches_of_name {kind : TokenKind} {name more : List Char} (hc : isIdentStart c = true)
    (hname : ∀ d ∈ name, isIdentChar d = true) (hkind : word (c :: name) = kind ∨ kind = .ident) :
    (cut c (name ++ more)).Reaches (.token kind) (c :: name) := by
  by_cases hbottom : ∃ rest, c = '_' ∧ name ++ more = '|' :: '_' :: rest
  case pos =>
    -- `_|_` is longer than the name `_`
    obtain ⟨rest, rfl, hrest⟩ := hbottom
    cases name with
    | nil =>
      rw [hrest]
      exact .of_lt Lexeme.noConfusion (Nat.lt_of_sub_eq_succ rfl)
    | cons d ds =>
      rw [List.cons_append, List.cons.injEq] at hrest
      exact absurd (hname d List.mem_cons_self) (by rw [hrest.1]; decide)
  case neg =>
    have hcut := cut_name hc fun rest hc hcs => hbottom ⟨rest, hc, hcs⟩
    rw [hcut, run, List.takeWhile_append_of_pos hname]
    refine ⟨Lexeme.noConfusion, by simp, fun hlength => ?_⟩
    have hnone : more.takeWhile isIdentChar = [] := by simpa using hlength
    rw [hnone, List.append_nil]
    exact hkind.imp (congrArg _) (congrArg _)

theorem takeWhile_append_stop {p : Char → Bool} {ds : List Char} {e : Char}
    (hds : ∀ d ∈ ds, p d = true) (he : p e = false) (more : List Char) :
    (ds ++ e :: more).takeWhile p = ds := by
  rw [List.takeWhile_append_of_pos hds, List.takeWhile_cons_of_neg (by simp [he]), List.append_nil]

theorem dropWhile_append_stop {p : Char → Bool} {ds : List Char} {e : Char}
    (hds : ∀ d ∈ ds, p d = true) (he : p e = false) (more : List Char) :
    (ds ++ e :: more).dropWhile p = e :: more := by
  rw [List.dropWhile_append_of_pos hds, List.dropWhile_cons_of_neg (by simp [he])]

theorem reaches_int {ds : List Char} (h : ∀ d ∈ ds, d.isDigit = true ∨ d = '_') (more : List Char) :
    (numberTail (ds ++ more)).Reaches (.token .int) (c :: ds) := by
  have hds : ∀ d ∈ ds, (d.isDigit || d == '_') = true := fun d hd => by simpa using h d hd
  have hlength := length_le_takeWhile hds more
  have hint : (run (.token .int) (fun c => c.isDigit || c == '_') (ds ++ more)).Reaches
      (.token .int) (c :: ds) :=
    .of_lexeme rfl Lexeme.noConfusion (Nat.succ_le_succ hlength)
  unfold numberTail
  split
  case h_1 d cs' hdot =>
    split
    case isTrue =>
      -- the integer stops before the point
      have hsplit := takeWhile_append_of_dropWhile hdot
      have hdigits : ∀ d ∈ (ds ++ more).takeWhile Char.isDigit, (d.isDigit || d == '_') = true :=
        fun d hd => by
        rw [forall_mem_takeWhile d hd, Bool.true_or]
      rw [← hsplit, takeWhile_append_stop hdigits rfl] at hlength
      refine .of_lt Lexeme.noConfusion (Nat.succ_lt_succ (Nat.lt_of_le_of_lt hlength ?_))
      simp
    case isFalse => exact hint
  case h_2 => exact hint

theorem length_le_exponentTail {exp : List Char} (h : Exponent exp) (more : List Char) :
    exp.length ≤ (exponentTail (exp ++ more)).1.length := by
  cases h with
  | none => exact Nat.zero_le _
  | @some e sign digits he hsign hdigits =>
    obtain ⟨hne, hdigits⟩ := hdigits
    have htail : signTail (sign ++ digits ++ more) = (sign, digits ++ more) := by
      obtain rfl | rfl | rfl := hsign
      · obtain ⟨d, ds, rfl⟩ := List.exists_cons_of_ne_nil hne
        have hd := hdigits d List.mem_cons_self
        rw [List.nil_append, List.cons_append, signTail]
        all_goals
          intro rest hrest
          rw [(List.cons.inj hrest).1] at hd
          cases hd
      · rfl
      · rfl
    have hsome : ((digits ++ more).takeWhile Char.isDigit).isEmpty = false := by
      rw [List.takeWhile_append_of_pos hdigits]
      simp [hne]
    have hlength := length_le_takeWhile hdigits more
    rw [List.cons_append, List.cons_append, exponentTail, htail, if_pos ⟨he, hsome⟩]
    simp only [List.length_append, List.length_cons]
    omega

theorem reaches_float {whole places exp : List Char} (hwhole : ∀ d ∈ whole, d.isDigit = true)
    (hplaces : Digits places) (hexp : Exponent exp) (more : List Char) :
    (numberTail (whole ++ '.' :: places ++ exp ++ more)).Reaches (.token .float)
      (c :: whole ++ '.' :: places ++ exp) := by
  obtain ⟨hne, hplaces⟩ := hplaces
  obtain ⟨d, ds, rfl⟩ := List.exists_cons_of_ne_nil hne
  obtain ⟨hd, hds⟩ := List.forall_mem_cons.mp hplaces
  have hcs : whole ++ '.' :: (d :: ds) ++ exp ++ more = whole ++ '.' :: d ::
      (ds ++ exp ++ more) := by simp
  have hlength : ds.length + exp.length ≤ ((ds ++ exp ++ more).takeWhile Char.isDigit).length +
      (exponentTail ((ds ++ exp ++ more).dropWhile Char.isDigit)).1.length := by
    rw [List.append_assoc, List.takeWhile_append_of_pos hds, List.dropWhile_append_of_pos hds,
      List.length_append]
    have hexpLength := length_le_exponentTail hexp more
    cases hexp with
    | none => simp; omega
    | @some e sign digits he hsign hdigits =>
      have hstop : e.isDigit = false := by obtain rfl | rfl := he <;> rfl
      rw [List.cons_append, List.cons_append, List.dropWhile_cons_of_neg (by simp [hstop])]
      rw [List.cons_append, List.cons_append] at hexpLength
      omega
  rw [hcs, numberTail, takeWhile_append_stop hwhole rfl, dropWhile_append_stop hwhole rfl]
  simp only [hd, if_true]
  refine .of_lexeme rfl Lexeme.noConfusion ?_
  simp only [List.length_append, List.length_cons]
  omega

theorem attributeTail_of_form {name body : List Char} (hc : isAttributeStart c = true)
    (hname : ∀ d ∈ name, isAttributeChar d = true) (hbody : ∀ d ∈ body, d ≠ ')' ∧ d ≠ '\n')
    (rest : List Char) :
    attributeTail (c :: name ++ '(' :: body ++ ')' :: rest) =
      ⟨.gap, c :: name ++ '(' :: body ++ [')'], rest⟩ := by
  have hfirst : ∀ d ∈ c :: name, isAttributeChar d = true :=
    List.forall_mem_cons.mpr ⟨isAttributeChar_of_isAttributeStart hc, hname⟩
  have hinside : ∀ d ∈ body, (d != ')' && d != '\n') = true := fun d hd => by simpa using hbody d hd
  have hcs : c :: name ++ '(' :: body ++ ')' :: rest = c :: name ++ '(' ::
      (body ++ ')' :: rest) := by simp
  have hname : (c :: name ++ '(' :: (body ++ ')' :: rest)).dropWhile isAttributeChar = '(' ::
      (body ++ ')' :: rest) :=
    dropWhile_append_stop hfirst rfl _
  have hend : (body ++ ')' :: rest).dropWhile (fun c => c != ')' && c != '\n') = ')' :: rest :=
    dropWhile_append_stop hinside rfl rest
  rw [hcs, List.cons_append, attributeTail, if_pos hc, ← List.cons_append,
    takeWhile_append_stop hfirst rfl]
  simp only [hname, hend]
  rw [takeWhile_append_stop hinside rfl]

theorem stringTail_of_body {body : List Char} (h : StringBody body) (rest : List Char) :
    stringTail (body ++ '"' :: rest) = ⟨.token .string, body ++ ['"'], rest⟩ := by
  induction h with
  | nil => rw [List.nil_append, stringTail, List.nil_append]
  | plain hquote hslash hnewline h ih =>
    rw [List.cons_append, stringTail, if_neg hnewline, ih]
    · rfl
    all_goals intros; contradiction
  | escape hnewline h ih =>
    rw [List.cons_append, List.cons_append, stringTail, if_neg hnewline, ih]
    rfl

theorem exists_of_keyword {kind : TokenKind} (h : (text, kind) ∈ keywords) :
    ∃ c name, text = c :: name ∧
    isIdentStart c = true ∧ (∀ d ∈ name, isIdentChar d = true) ∧ word text = kind := by
  simp only [keywords, List.mem_cons, Prod.mk.injEq, List.not_mem_nil, or_false] at h
  rcases h with ⟨rfl, rfl⟩ | ⟨rfl, rfl⟩ | ⟨rfl, rfl⟩ | ⟨rfl, rfl⟩ | ⟨rfl, rfl⟩ <;>
    exact ⟨_, _, rfl, by decide, List.all_eq_true.mp (by decide), by decide⟩

/-- The lexer cuts off the longest text in front that has a form. -/
theorem reaches_of_form {more : List Char} (h : Form lx text) (heq : c :: cs = text ++ more) :
    (cut c cs).Reaches lx text := by
  cases h with
  | @blanks _ ds hgap =>
    rw [List.cons_append, List.cons.injEq] at heq
    obtain ⟨rfl, rfl⟩ := heq
    obtain ⟨hc, hds⟩ := List.forall_mem_cons.mp hgap
    rw [show cut c (ds ++ more) = run .gap isGap (ds ++ more) from if_pos hc]
    exact .of_lexeme rfl Lexeme.noConfusion (Nat.succ_le_succ (length_le_takeWhile hds more))
  | @comment body hbody =>
    cases heq
    have htaken : body.length ≤ ((body ++ more).takeWhile (· != '\n')).length :=
      length_le_takeWhile (fun d hd => by simpa using hbody d hd) more
    refine .of_lexeme rfl Lexeme.noConfusion ?_
    show body.length + 2 ≤ ((body ++ more).takeWhile (· != '\n')).length + 2
    exact Nat.add_le_add_right htaken 2
  | @attr d name body hd hname hbody =>
    have htail : cs = d :: name ++ '(' :: body ++ ')' :: more := by
      simpa using (List.cons.inj heq).2
    obtain rfl : c = '@' := (List.cons.inj heq).1
    have hcut : cut '@' cs = ⟨.gap, d :: name ++ '(' :: body ++ [')'], more⟩ :=
      htail ▸ attributeTail_of_form hd hname hbody more
    rw [hcut]
    exact .of_lexeme rfl Lexeme.noConfusion (Nat.le_refl _)
  | sign hsign => exact reaches_of_sign hsign heq
  | keyword hkeyword =>
    obtain ⟨d, name, rfl, hd, hname, hword⟩ := exists_of_keyword hkeyword
    rw [List.cons_append, List.cons.injEq] at heq
    obtain ⟨rfl, rfl⟩ := heq
    exact reaches_of_name hd hname (.inl hword)
  | @definition d name hd hname =>
    cases heq
    have hcut : cut '#' (d :: (name ++ more)) = run (.token .definition) isIdentChar
        (d :: (name ++ more)) := if_pos hd
    have hall : ∀ e ∈ d :: name, isIdentChar e = true :=
      List.forall_mem_cons.mpr ⟨isIdentChar_of_isIdentStart hd, hname⟩
    refine .of_lexeme (congrArg Cut.lexeme hcut) Lexeme.noConfusion ?_
    exact (congrArg (fun x => x.taken.length + 1) hcut).symm ▸ Nat.succ_le_succ
      (length_le_takeWhile hall more)
  | ident hc hname =>
    rw [List.cons_append, List.cons.injEq] at heq
    obtain ⟨rfl, rfl⟩ := heq
    exact reaches_of_name hc hname (.inr rfl)
  | int hc hdigits =>
    rw [List.cons_append, List.cons.injEq] at heq
    obtain ⟨rfl, rfl⟩ := heq
    rw [cut_digit hc]
    exact reaches_int hdigits more
  | @float whole places exp hwhole hplaces hexp =>
    obtain ⟨hne, hwhole⟩ := hwhole
    obtain ⟨d, ds, rfl⟩ := List.exists_cons_of_ne_nil hne
    obtain ⟨hd, hds⟩ := List.forall_mem_cons.mp hwhole
    have htail : cs = ds ++ '.' :: places ++ exp ++ more := by simpa using (List.cons.inj heq).2
    obtain rfl : c = d := (List.cons.inj heq).1
    rw [cut_digit hd, htail]
    exact reaches_float hds hplaces hexp more
  | @string body hbody =>
    have htail : cs = body ++ '"' :: more := by simpa using (List.cons.inj heq).2
    obtain rfl : c = '"' := (List.cons.inj heq).1
    have hcut : cut '"' cs = ⟨.token .string, body ++ ['"'], more⟩ :=
      htail ▸ stringTail_of_body hbody more
    rw [hcut]
    exact .of_lexeme rfl Lexeme.noConfusion (Nat.le_refl _)

/-- The lexer refuses a text just where nothing in front of it has a form. -/
theorem bad_iff_forall_form : (cut c cs).lexeme = .bad ↔ ∀ lx text more, Form lx text →
    c :: cs ≠ text ++ more := by
  constructor
  · intro hbad lx text more h heq
    exact (reaches_of_form h heq).good hbad
  · intro h
    refine Decidable.by_contra fun hgood => h _ _ (cut c cs).rest (formed_cut c cs hgood) ?_
    rw [List.cons_append, cut_append]

example : ((cut '1' "2.5e+3x".toList).lexeme, (cut '1' "2.5e+3x".toList).taken) =
    (.token .float, "2.5e+3".toList) ∧
    ((cut '1' "2_3.5".toList).lexeme, (cut '1' "2_3.5".toList).taken) =
    (.token .int, "2_3".toList) ∧ (cut '"' "a\\".toList).lexeme = .bad := by decide +kernel

end SchemaMock.Token
